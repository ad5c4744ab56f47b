import SandboxPredictor.TageAllocation

/- Which tables provide a prediction of TAGE.

   `hit s pc i` is what the lookup in table `i` says in the state in which `pc` is
   predicted. The main provider is the highest table that hits, the alternative
   provider the next one below it, and the entries found are the ones there. -/
namespace SandboxPredictor
namespace TAGE

variable {β ρ : Type} [Predictor β ρ] {nTables idxLen : Nat}

/-- The lookup of the branch in table `i` finds a valid entry. -/
def hit (s : TAGE β nTables idxLen) (pc : Word) (i : Nat) : Bool :=
  ((s.tables i).lookup pc s.history).valid

/-- Two tables hit. -/
def TwoHits (s : TAGE β nTables idxLen) (pc : Word) : Prop :=
  ∃ i j, i < j ∧ j < nTables ∧ s.hit pc i = true ∧ s.hit pc j = true

instance (s : TAGE β nTables idxLen) (pc : Word) : Decidable (s.TwoHits pc) :=
  decidable_of_iff (∃ j < nTables, ∃ i < j, s.hit pc i = true ∧ s.hit pc j = true)
    ⟨fun ⟨j, hj, i, hij, h⟩ => ⟨i, j, hij, hj, h⟩, fun ⟨i, j, hij, hj, h⟩ => ⟨j, hj, i, hij, h⟩⟩

/-! ## The search -/

theorem findProvider_eq_some_iff {lookup : Nat → TageEntry} {n i : Nat} {e : TageEntry} :
    (findProvider lookup n e).2 = some i ↔
      i < n ∧ (lookup i).valid = true ∧ ∀ j, i < j → j < n → (lookup j).valid = false := by
  refine ⟨?_, ?_⟩
  · intro h
    obtain ⟨hi, _, hvalid, hmiss⟩ := findProvider_some h
    exact ⟨hi, hvalid, hmiss⟩
  · intro ⟨hi, hvalid, hmiss⟩
    cases hfound : (findProvider lookup n e).2 with
    | none =>
      rw [findProvider_none hfound i hi] at hvalid
      cases hvalid
    | some k =>
      obtain ⟨hk, _, hkvalid, hkmiss⟩ := findProvider_some hfound
      -- of two highest valid entries neither is above the other
      obtain hlt | rfl | hlt := Nat.lt_trichotomy k i
      · rw [hkmiss i hlt hi] at hvalid
        cases hvalid
      · rfl
      · rw [hmiss k hlt hk] at hkvalid
        cases hkvalid

/-- The entry the search ends with is valid when it found a provider. -/
theorem findProvider_valid {lookup : Nat → TageEntry} {n : Nat} {e : TageEntry}
    (he : e.valid = false) :
    (findProvider lookup n e).1.valid = (findProvider lookup n e).2.isSome := by
  induction n generalizing e with
  | zero => exact he
  | succ n ih =>
    simp only [findProvider]
    cases hn : (lookup n).valid with
    | true =>
      rw [if_pos rfl]
      exact hn
    | false =>
      rw [if_neg Bool.false_ne_true]
      exact ih hn

/-! ## The providers -/

section
variable (s : TAGE β nTables idxLen) (pc : Word)

theorem mainPred_valid :
    (s.predict pc).2.mainPred.valid = (s.predict pc).2.mainProvider.isSome :=
  findProvider_valid rfl

theorem altPred_valid :
    (s.predict pc).2.altPred.valid = (s.predict pc).2.altProvider.isSome :=
  findProvider_valid rfl

end

section
variable {s : TAGE β nTables idxLen} {pc : Word} {i : Nat}

theorem mainProvider_eq_some_iff : (s.predict pc).2.mainProvider = some i ↔
    i < nTables ∧ s.hit pc i = true ∧ ∀ j, i < j → j < nTables → s.hit pc j = false :=
  findProvider_eq_some_iff

theorem mainProvider_eq_none (h : (s.predict pc).2.mainProvider = none) :
    ∀ j < nTables, s.hit pc j = false :=
  findProvider_none (e := { s.mainPred with useful := -1 }) h

/-- The search for the alternative provider goes through the tables below the main one. -/
theorem predict_altProvider : (s.predict pc).2.altProvider =
    (findProvider (fun i => (s.tables i).lookup pc s.history)
      ((s.predict pc).2.mainProvider.getD 0) { s.altPred with useful := -1 }).2 := rfl

theorem altProvider_eq_some_iff : (s.predict pc).2.altProvider = some i ↔
    ∃ m, (s.predict pc).2.mainProvider = some m ∧ i < m ∧ s.hit pc i = true ∧
      ∀ j, i < j → j < m → s.hit pc j = false := by
  rw [predict_altProvider, findProvider_eq_some_iff]
  cases hm : (s.predict pc).2.mainProvider with
  | none => simp
  | some m => simp [hit]

theorem mainPred_eq (h : (s.predict pc).2.mainProvider = some i) :
    (s.predict pc).2.mainPred = (s.tables i).lookup pc s.history :=
  (findProvider_some (e := { s.mainPred with useful := -1 }) h).2.1

theorem altPred_eq (h : (s.predict pc).2.altProvider = some i) :
    (s.predict pc).2.altPred = (s.tables i).lookup pc s.history :=
  (findProvider_some (e := { s.altPred with useful := -1 }) h).2.1

/-- Both providers are found when two tables hit. -/
theorem both_valid_iff :
    ((s.predict pc).2.mainPred.valid && (s.predict pc).2.altPred.valid) = true ↔
      s.TwoHits pc := by
  rw [Bool.and_eq_true, mainPred_valid, altPred_valid, Option.isSome_iff_exists,
    Option.isSome_iff_exists]
  refine ⟨?_, ?_⟩
  · intro ⟨_, i, hi⟩
    obtain ⟨m, hm, him, hhit, _⟩ := altProvider_eq_some_iff.1 hi
    obtain ⟨hlt, hmhit, _⟩ := mainProvider_eq_some_iff.1 hm
    exact ⟨i, m, him, hlt, hhit, hmhit⟩
  · intro ⟨i, j, hij, hj, hi, hjhit⟩
    cases hm : (s.predict pc).2.mainProvider with
    | none =>
      rw [mainProvider_eq_none hm j hj] at hjhit
      cases hjhit
    | some m =>
      refine ⟨⟨m, rfl⟩, ?_⟩
      obtain ⟨_, _, hmiss⟩ := mainProvider_eq_some_iff.1 hm
      have hjm : j ≤ m := by
        by_contra hlt
        rw [hmiss j (by omega) hj] at hjhit
        cases hjhit
      cases ha : (s.predict pc).2.altProvider with
      | some a => exact ⟨a, rfl⟩
      | none =>
        rw [predict_altProvider, hm, Option.getD_some] at ha
        have hmissi : s.hit pc i = false := findProvider_none ha i (by omega)
        rw [hmissi] at hi
        cases hi

end

/-- `predict` looks the branch up in table `i`: it ends its search below the second table
that hits. -/
def LookedUp (s : TAGE β nTables idxLen) (pc : Word) (i : Nat) : Prop :=
  i < nTables ∧
    ∀ j k, i < j → j < k → k < nTables → ¬ (s.hit pc j = true ∧ s.hit pc k = true)

/-- The providers are the tables that are looked up and hit. -/
theorem provider_iff {s : TAGE β nTables idxLen} {pc : Word} {i : Nat} :
    ((s.predict pc).2.mainProvider = some i ∨ (s.predict pc).2.altProvider = some i) ↔
      s.LookedUp pc i ∧ s.hit pc i = true := by
  refine ⟨?_, ?_⟩
  · intro hprov
    obtain hmain | halt := hprov
    · obtain ⟨hi, hhit, hmiss⟩ := mainProvider_eq_some_iff.1 hmain
      refine ⟨⟨hi, ?_⟩, hhit⟩
      intro j k hij hjk hk ⟨hj, _⟩
      rw [hmiss j hij (by omega)] at hj
      cases hj
    · obtain ⟨m, hmain, him, hhit, hbetween⟩ := altProvider_eq_some_iff.1 halt
      obtain ⟨hm, _, hmiss⟩ := mainProvider_eq_some_iff.1 hmain
      refine ⟨⟨by omega, ?_⟩, hhit⟩
      intro j k hij hjk hk ⟨hj, hk'⟩
      -- of the tables above the alternative provider only the main one hits
      by_cases hjm : j < m
      · rw [hbetween j hij hjm] at hj
        cases hj
      · rw [hmiss k (by omega) hk] at hk'
        cases hk'
  · intro ⟨⟨hi, hlooked⟩, hhit⟩
    cases hmain : (s.predict pc).2.mainProvider with
    | none =>
      rw [mainProvider_eq_none hmain i hi] at hhit
      cases hhit
    | some m =>
      obtain ⟨hm, hmhit, hmiss⟩ := mainProvider_eq_some_iff.1 hmain
      obtain hlt | rfl | hlt := Nat.lt_trichotomy i m
      · refine Or.inr (altProvider_eq_some_iff.2 ⟨m, hmain, hlt, hhit, ?_⟩)
        intro j hij hjm
        apply Bool.eq_false_iff.2
        intro hj
        exact hlooked j m hij hjm hm ⟨hj, hmhit⟩
      · exact Or.inl rfl
      · rw [hmiss i hlt hi] at hhit
        cases hhit

/-! ## What a pair trains -/

/-- The branch's entry of table `i` holds its tag when the table hits. -/
theorem hit_iff {s : TAGE β nTables idxLen} (hs : InRange s) (pc : Word) (i : Nat) :
    s.hit pc i = true ↔ (s.tables i).getTag pc s.history =
      ((s.tables i).content ((s.tables i).getIdx pc s.history)).tag :=
  TagTable.lookup_valid_iff (hs i) pc s.history

/-- The base is updated unless both providers were found. -/
theorem update_baseBP (t : TAGE β nTables idxLen) (draw : ρ × Nat) (pc : Word) (taken : Bool) :
    (t.update draw pc taken).baseBP =
      if !(t.mainPred.valid && t.altPred.valid) then Predictor.update t.baseBP draw.1 pc taken
      else Predictor.updateHistory t.baseBP taken := by
  have htrain := trainProviders_only t pc taken
  calc (t.update draw pc taken).baseBP
      = (t.beforeSoftReset draw pc taken).baseBP := by
        simp only [update, softReset]
        split <;> rfl
    _ = (t.train draw.1 pc taken).baseBP :=
        (allocate_only _ draw.2 pc taken).congr baseBP (fun _ => rfl)
    _ = (t.trainBase draw.1 pc taken).baseBP :=
        htrain.congr (fun t => (t.trainBase draw.1 pc taken).baseBP) (fun _ => rfl)

/-- What a pair does to the base: it predicts, and is updated unless two tables hit. -/
theorem execute_baseBP (s : TAGE β nTables idxLen) (b : Branch (ρ × Nat)) :
    (execute s b).2.baseBP =
      if s.TwoHits b.pc
      then Predictor.updateHistory (Predictor.predict s.baseBP b.pc).2 b.taken
      else Predictor.update (Predictor.predict s.baseBP b.pc).2 b.draw.1 b.pc b.taken := by
  show ((s.predict b.pc).2.update b.draw b.pc b.taken).baseBP = _
  rw [update_baseBP]
  by_cases htwo : s.TwoHits b.pc
  · rw [if_pos htwo, both_valid_iff.2 htwo]
    rfl
  · rw [if_neg htwo, Bool.eq_false_iff.2 (mt both_valid_iff.1 htwo)]
    rfl

/-- The outcome is shifted into the history last, and the history is masked. -/
theorem update_history (t : TAGE β nTables idxLen) (draw : ρ × Nat) (pc : Word) (taken : Bool) :
    (t.update draw pc taken).history =
      ShiftRegister.shiftIn t.history taken &&& lowMask (ghrLen nTables) := by
  have hbefore : (t.beforeSoftReset draw pc taken).history =
      ShiftRegister.shiftIn t.history taken &&& lowMask (ghrLen nTables) := by
    have halloc := allocate_only (t.train draw.1 pc taken) draw.2 pc taken
    rw [← train_history t draw.1 pc taken]
    exact halloc.congr (fun t => (t.shiftHistory taken).history) (fun _ => rfl)
  rw [← hbefore]
  simp only [update, softReset]
  split <;> rfl

theorem execute_history (s : TAGE β nTables idxLen) (b : Branch (ρ × Nat)) :
    (execute s b).2.history =
      ShiftRegister.shiftIn s.history b.taken &&& lowMask (ghrLen nTables) :=
  update_history (s.predict b.pc).2 b.draw b.pc b.taken

section
variable {t : TAGE β nTables idxLen} {pc : Word} {i : Nat}

theorem trainTable_of_ne {provider : Option Nat} (h : provider ≠ some i) (taken : Bool)
    (useful : Int) : (t.trainTable provider pc taken useful).tables i = t.tables i := by
  cases provider with
  | none => rfl
  | some j => exact setTable_of_ne t (fun e => h (congrArg some e.symm)) _

theorem trainTable_self (t : TAGE β nTables idxLen) (i : Nat) (pc : Word) (taken : Bool)
    (useful : Int) : (t.trainTable (some i) pc taken useful).tables i =
      (t.tables i).update pc t.history taken useful := setTable_self t i _

/-- The main provider's table takes the outcome. -/
theorem trainProviders_main (hvalid : t.mainPred.valid = true) (hmain : t.mainProvider = some i)
    (halt : t.altProvider ≠ some i) (pc : Word) (taken : Bool) :
    ∃ useful, (t.trainProviders pc taken).tables i =
      (t.tables i).update pc t.history taken useful := by
  simp only [trainProviders, hvalid, hmain, if_true]
  by_cases halt' : (t.altPred.valid && decide (t.mainPred.useful = 0)) = true
  · rw [if_pos halt']
    exact ⟨_, (trainTable_of_ne halt taken _).trans (trainTable_self t i pc taken _)⟩
  · rw [if_neg halt']
    exact ⟨_, trainTable_self t i pc taken _⟩

/-- The alternative provider's table takes it when the main entry is not useful yet. -/
theorem trainProviders_alt (hvalid : t.altPred.valid = true) (halt : t.altProvider = some i)
    (hmain : t.mainProvider ≠ some i) (pc : Word) (taken : Bool) :
    (t.trainProviders pc taken).tables i =
      if t.mainPred.useful = 0
      then (t.tables i).update pc t.history taken (if t.altPred.taken == taken then 1 else -1)
      else t.tables i := by
  have hfirst : ∀ useful, (if t.mainPred.valid then t.trainTable t.mainProvider pc taken useful
      else t).tables i = t.tables i := by
    intro useful
    split
    · exact trainTable_of_ne hmain taken useful
    · rfl
  have hhistory : ∀ useful, (if t.mainPred.valid then t.trainTable t.mainProvider pc taken useful
      else t).history = t.history := by
    intro useful
    split
    · exact (trainTable_only t _ pc taken useful).congr history (fun _ => rfl)
    · rfl
  simp only [trainProviders, hvalid, halt, Bool.true_and, decide_eq_true_eq]
  split
  · rw [trainTable_self, hfirst, hhistory]
  · exact hfirst _

/-- No other table is trained. -/
theorem trainProviders_other (hmain : t.mainProvider ≠ some i) (halt : t.altProvider ≠ some i)
    (pc : Word) (taken : Bool) : (t.trainProviders pc taken).tables i = t.tables i := by
  apply trainProviders_induction (P := fun u => u.tables i = t.tables i) rfl
  intro u provider useful hprov hu
  refine (trainTable_of_ne ?_ taken useful).trans hu
  obtain rfl | rfl := hprov
  · exact hmain
  · exact halt

/-- An allocation leaves the main provider and the tables below it. -/
theorem allocate_below (h : i < t.firstAbove) (randNum : Nat) (taken : Bool) :
    (t.allocate randNum pc taken).tables i = t.tables i := by
  have hnot : i ∉ t.above := fun hi => absurd (mem_above.1 hi).1 (by omega)
  obtain ⟨_, heq⟩ | ⟨_, ⟨j, hj, t', _, heq⟩ | ⟨_, heq⟩⟩ := allocate_cases t randNum pc taken
  · rw [heq]
  · have hne : i ≠ j := by
      intro e
      exact hnot (e ▸ hj)
    rw [heq]
    exact setTable_of_ne t hne t'
  · rw [heq, decayAll_tables t.above_nodup, if_neg hnot]

/-- A soft reset leaves tags and counters. -/
theorem softReset_entry (t : TAGE β nTables idxLen) (i : Nat) (idx : Word) :
    ((t.softReset.tables i).content idx).tag = ((t.tables i).content idx).tag ∧
      ((t.softReset.tables i).content idx).counter = ((t.tables i).content idx).counter := by
  simp only [softReset]
  split <;> exact ⟨rfl, rfl⟩

end

/-! What a pair leaves in the entries of the providers. -/

section
variable {s : TAGE β nTables idxLen} {b : Branch (ρ × Nat)} {i : Nat}

theorem altProvider_lt {m : Nat} (hmain : (s.predict b.pc).2.mainProvider = some m)
    (halt : (s.predict b.pc).2.altProvider = some i) : i < m := by
  obtain ⟨m', hm', hlt, _⟩ := altProvider_eq_some_iff.1 halt
  obtain rfl := Option.some.inj (hmain.symm.trans hm')
  exact hlt

/-- The rest of the update leaves the tags and counters of the tables up to the main
provider as the training leaves them. -/
theorem execute_below (h : i < (s.predict b.pc).2.firstAbove) (idx : Word) :
    (((execute s b).2.tables i).content idx).tag =
        ((((s.predict b.pc).2.trainProviders b.pc b.taken).tables i).content idx).tag ∧
      (((execute s b).2.tables i).content idx).counter =
        ((((s.predict b.pc).2.trainProviders b.pc b.taken).tables i).content idx).counter := by
  have hbefore : ((s.predict b.pc).2.beforeSoftReset b.draw b.pc b.taken).tables i =
      ((s.predict b.pc).2.trainProviders b.pc b.taken).tables i := by
    apply allocate_below
    rw [train_firstAbove]
    exact h
  have hsoft := softReset_entry ((s.predict b.pc).2.beforeSoftReset b.draw b.pc b.taken) i idx
  rw [hbefore] at hsoft
  exact hsoft

/-- The main provider's entry keeps its tag, and its counter takes the outcome. -/
theorem execute_main (hs : InRange s) (hmain : (s.predict b.pc).2.mainProvider = some i) :
    let idx := (s.tables i).getIdx b.pc s.history
    (((execute s b).2.tables i).content idx).tag = (s.tables i).getTag b.pc s.history ∧
      (((execute s b).2.tables i).content idx).counter =
        Saturating.step TagTable.counterMin TagTable.counterMax b.taken
          ((s.tables i).content idx).counter := by
  intro idx
  have hfirst : i < (s.predict b.pc).2.firstAbove := by
    simp only [firstAbove]
    rw [hmain]
    exact Nat.lt_succ_self i
  have hvalid : (s.predict b.pc).2.mainPred.valid = true := by rw [mainPred_valid, hmain]; rfl
  have halt : (s.predict b.pc).2.altProvider ≠ some i :=
    fun halt => absurd (altProvider_lt hmain halt) (Nat.lt_irrefl i)
  have htag := (hit_iff hs b.pc i).1 (mainProvider_eq_some_iff.1 hmain).2.1
  obtain ⟨useful, htrain⟩ := trainProviders_main hvalid hmain halt b.pc b.taken
  obtain ⟨htag', hcounter⟩ := execute_below (s := s) (b := b) hfirst idx
  rw [htag', hcounter, htrain]
  have hself := TagTable.update_self b.taken useful htag
  exact ⟨(congrArg TageEntry.tag hself).trans htag.symm, congrArg TageEntry.counter hself⟩

end

end TAGE
end SandboxPredictor
