import SandboxPredictor.TagTable

/- `TAGE` (`tage.cc`): a base predictor and `nTables` tagged tables of growing
   history, of which the longest match provides the prediction.

   `update` is the stages of the source one after the other: training the
   providers, training the base, allocating, shifting the history, and the soft
   reset of the useful counters. A random draw of an update is the one of the
   base's update and the result of `random()`. -/
namespace SandboxPredictor
open ShiftRegister

/-- An object constructed as `TAGE(base, nTables, idxLen)`. `none` is the provider -1. -/
structure TAGE (β : Type) (nTables idxLen : Nat) where
  baseBP : β
  tables : (i : Nat) → TagTable idxLen (2 <<< i)
  history : Word
  mainPred : TageEntry
  mainProvider : Option Nat
  altPred : TageEntry
  altProvider : Option Nat
  basePred : Bool
  overallPred : Bool
  branchCount : Word
  resetMask : BitVec 32

namespace TAGE

variable {β ρ : Type} [Predictor β ρ] {nTables idxLen : Nat}

def ghrLen (nTables : Nat) : Nat := 1 <<< nTables

def resetPeriod : Word := 1#64 <<< 18

/-- `reset`: what `predict` left in `basePred` and `overallPred` stays. -/
def reset (s : TAGE β nTables idxLen) : TAGE β nTables idxLen :=
  { s with
    tables := fun i => (s.tables i).hardReset
    baseBP := Predictor.reset s.baseBP
    history := 0
    mainPred := ⟨0, 0, -1⟩
    altPred := ⟨0, 0, -1⟩
    mainProvider := none
    altProvider := none
    branchCount := 0
    resetMask := 1 }

/-- A constructed object. -/
def new (base : β) (nTables idxLen : Nat) : TAGE β nTables idxLen :=
  reset ⟨base, fun _ => ⟨fun _ => ⟨0, 0, 0⟩⟩, 0, ⟨0, 0, -1⟩, none, ⟨0, 0, -1⟩, none, false, false,
    0, 1⟩

/-- The search for a provider from table `n - 1` down to 0. When it finds none, the entry
is the one looked up last, or the one at hand when there was no table to look in. -/
def findProvider (lookup : Nat → TageEntry) : Nat → TageEntry → TageEntry × Option Nat
  | 0, e => (e, none)
  | i + 1, _ =>
    let e := lookup i
    if e.valid then (e, some i) else findProvider lookup i e

def predict (s : TAGE β nTables idxLen) (pc : Word) : Prediction × TAGE β nTables idxLen :=
  let lookup := fun i => (s.tables i).lookup pc s.history
  let (mainPred, mainProvider) := findProvider lookup nTables { s.mainPred with useful := -1 }
  -- without a main provider the second loop starts below 0
  let (altPred, altProvider) :=
    findProvider lookup (mainProvider.getD 0) { s.altPred with useful := -1 }
  let (basePred, baseBP) := Predictor.predict s.baseBP pc
  let pred := if altPred.valid then altPred.toPrediction else basePred
  let pred := if mainPred.valid && !mainPred.weak then mainPred.toPrediction else pred
  (pred, { s with
    baseBP := baseBP
    mainPred := mainPred
    mainProvider := mainProvider
    altPred := altPred
    altProvider := altProvider
    basePred := basePred.taken
    overallPred := pred.taken })

/-- `tables[i] = t`. -/
def setTable (s : TAGE β nTables idxLen) (i : Nat) (t : TagTable idxLen (2 <<< i)) :
    TAGE β nTables idxLen :=
  { s with tables := Function.update s.tables i t }

@[simp] theorem setTable_self (s : TAGE β nTables idxLen) (i : Nat)
    (t : TagTable idxLen (2 <<< i)) : (s.setTable i t).tables i = t := Function.update_self _ _ _

theorem setTable_of_ne (s : TAGE β nTables idxLen) {i j : Nat} (h : j ≠ i)
    (t : TagTable idxLen (2 <<< i)) : (s.setTable i t).tables j = s.tables j :=
  Function.update_of_ne h _ _

/-- `tables[provider]->update(..)`. -/
def trainTable (s : TAGE β nTables idxLen) (provider : Option Nat) (pc : Word) (taken : Bool)
    (useful : Int) : TAGE β nTables idxLen :=
  match provider with
  | some i => s.setTable i ((s.tables i).update pc s.history taken useful)
  | none => s

/-- The training of the main and of the alternative provider. -/
def trainProviders (s : TAGE β nTables idxLen) (pc : Word) (taken : Bool) :
    TAGE β nTables idxLen :=
  let altResult := if s.altPred.valid then s.altPred.taken else s.basePred
  let useful : Int := if s.mainPred.valid && (s.mainPred.taken != altResult)
    then (if s.mainPred.taken == taken then 1 else -1) else 0
  let s' := if s.mainPred.valid then s.trainTable s.mainProvider pc taken useful else s
  if s.altPred.valid && decide (s.mainPred.useful = 0)
  then s'.trainTable s.altProvider pc taken (if s.altPred.taken == taken then 1 else -1)
  else s'

/-- The base is trained unless both providers were found. -/
def trainBase (s : TAGE β nTables idxLen) (draw : ρ) (pc : Word) (taken : Bool) :
    TAGE β nTables idxLen :=
  { s with
    baseBP := if !(s.mainPred.valid && s.altPred.valid)
      then Predictor.update s.baseBP draw pc taken
      else Predictor.updateHistory s.baseBP taken }

/-- `requestNewEntry`. -/
def requestNewEntry (s : TAGE β nTables idxLen) (taken : Bool) : Bool :=
  if s.mainPred.valid && s.mainPred.weak then s.mainPred.taken == taken
  else s.overallPred != taken

/-- `mainProvider + 1`. -/
def firstAbove (s : TAGE β nTables idxLen) : Nat :=
  match s.mainProvider with
  | some i => i + 1
  | none => 0

/-- The tables above the main provider, lowest first. -/
def above (s : TAGE β nTables idxLen) : List Nat :=
  List.range' s.firstAbove (nTables - s.firstAbove)

/-- The first loop: each table gets its chance when its bit of `randNum` is set. `none`
when nothing was added. -/
def addRandomly (s : TAGE β nTables idxLen) (pc : Word) :
    List Nat → Nat → Option (TAGE β nTables idxLen)
  | [], _ => none
  | i :: is, randNum =>
    if randNum % 2 = 1 then
      match (s.tables i).add pc s.history with
      | some t => some (s.setTable i t)
      | none => addRandomly s pc is (randNum / 2)
    else addRandomly s pc is (randNum / 2)

/-- The second loop: the next free table. -/
def addNext (s : TAGE β nTables idxLen) (pc : Word) : List Nat → Option (TAGE β nTables idxLen)
  | [] => none
  | i :: is =>
    match (s.tables i).add pc s.history with
    | some t => some (s.setTable i t)
    | none => addNext s pc is

/-- The third loop, when all the entries are occupied. -/
def decayAll (s : TAGE β nTables idxLen) (pc : Word) (is : List Nat) : TAGE β nTables idxLen :=
  is.foldl (fun s i => s.setTable i ((s.tables i).decay pc s.history)) s

/-- The allocation of a new entry. -/
def allocate (s : TAGE β nTables idxLen) (randNum : Nat) (pc : Word) (taken : Bool) :
    TAGE β nTables idxLen :=
  if s.requestNewEntry taken && decide (s.firstAbove < nTables) then
    match s.addRandomly pc s.above randNum with
    | some s' => s'
    | none =>
      match s.addNext pc s.above with
      | some s' => s'
      | none => s.decayAll pc s.above
  else s

def shiftHistory (s : TAGE β nTables idxLen) (taken : Bool) : TAGE β nTables idxLen :=
  let histMask := lowMask (ghrLen nTables)
  { s with history := shiftIn s.history taken &&& histMask }

/-- The mask of the soft reset an update is about to make, if it is to make one. -/
def softResetCall (s : TAGE β nTables idxLen) : Option (BitVec 32) :=
  if s.branchCount + 1 = resetPeriod then some s.resetMask else none

/-- The soft reset stage. -/
def softReset (s : TAGE β nTables idxLen) : TAGE β nTables idxLen :=
  let s' := { s with branchCount := s.branchCount + 1 }
  match s.softResetCall with
  | some mask =>
    { s' with tables := fun i => (s.tables i).softReset mask, resetMask := s.resetMask ^^^ 3 }
  | none => s'

/-- The state after the training stages. -/
def train (s : TAGE β nTables idxLen) (draw : ρ) (pc : Word) (taken : Bool) :
    TAGE β nTables idxLen :=
  (s.trainProviders pc taken).trainBase draw pc taken

/-- The state in which `update` reaches the soft reset stage. -/
def beforeSoftReset (s : TAGE β nTables idxLen) (draw : ρ × Nat) (pc : Word) (taken : Bool) :
    TAGE β nTables idxLen :=
  ((s.train draw.1 pc taken).allocate draw.2 pc taken).shiftHistory taken

def update (s : TAGE β nTables idxLen) (draw : ρ × Nat) (pc : Word) (taken : Bool) :
    TAGE β nTables idxLen :=
  (s.beforeSoftReset draw pc taken).softReset

instance : Predictor (TAGE β nTables idxLen) (ρ × Nat) where
  predict := predict
  update := update
  reset := reset

/-! ## The tables stay in range -/

def InRange (s : TAGE β nTables idxLen) : Prop := ∀ i, (s.tables i).InRange

variable {s : TAGE β nTables idxLen}

theorem reset_inRange (s : TAGE β nTables idxLen) : InRange s.reset :=
  fun i => (s.tables i).hardReset_inRange

theorem setTable_inRange (h : InRange s) {i : Nat} {t : TagTable idxLen (2 <<< i)}
    (ht : t.InRange) : InRange (s.setTable i t) := by
  intro j
  by_cases hj : j = i
  · subst hj
    rw [setTable_self]
    exact ht
  · rw [setTable_of_ne s hj]
    exact h j

theorem trainTable_inRange (h : InRange s) (provider : Option Nat) (pc : Word) (taken : Bool)
    (useful : Int) : InRange (s.trainTable provider pc taken useful) := by
  cases provider with
  | none => exact h
  | some i => exact setTable_inRange h (TagTable.update_inRange (h i) _ _ _ _)

/-- What holds before the training of the providers, and is kept by training the table of
one of them, holds after it. -/
theorem trainProviders_induction {P : TAGE β nTables idxLen → Prop} {pc : Word} {taken : Bool}
    (h0 : P s)
    (hstep : ∀ t provider useful, provider = s.mainProvider ∨ provider = s.altProvider → P t →
      P (t.trainTable provider pc taken useful)) : P (s.trainProviders pc taken) := by
  have hmain : ∀ useful, P
      (if s.mainPred.valid then s.trainTable s.mainProvider pc taken useful else s) := by
    intro useful
    split
    · exact hstep s _ useful (Or.inl rfl) h0
    · exact h0
  simp only [trainProviders]
  split
  · apply hstep _ _ _ (Or.inr rfl)
    exact hmain _
  · exact hmain _

theorem train_inRange (h : InRange s) (draw : ρ) (pc : Word) (taken : Bool) :
    InRange (s.train draw pc taken) :=
  trainProviders_induction (P := InRange) h
    (fun _ provider useful _ ht => trainTable_inRange ht provider pc taken useful)

/-- What the first loop adds, it adds to one of the tables it goes through. -/
theorem addRandomly_some {pc : Word} {is : List Nat} {randNum : Nat} {s' : TAGE β nTables idxLen}
    (h : s.addRandomly pc is randNum = some s') :
    ∃ i ∈ is, ∃ t ∈ (s.tables i).add pc s.history, s' = s.setTable i t := by
  induction is generalizing randNum with
  | nil => cases h
  | cons i is ih =>
    have hrest : s.addRandomly pc is (randNum / 2) = some s' →
        ∃ j ∈ i :: is, ∃ t ∈ (s.tables j).add pc s.history, s' = s.setTable j t := by
      intro h
      obtain ⟨j, hj, t, ht, hs'⟩ := ih h
      exact ⟨j, List.mem_cons_of_mem i hj, t, ht, hs'⟩
    simp only [addRandomly] at h
    split at h
    · split at h
      next t ht => exact ⟨i, List.mem_cons_self, t, ht, (Option.some.inj h).symm⟩
      next => exact hrest h
    · exact hrest h

/-- What the second loop adds, it adds to one of the tables it goes through. -/
theorem addNext_some {pc : Word} {is : List Nat} {s' : TAGE β nTables idxLen}
    (h : s.addNext pc is = some s') :
    ∃ i ∈ is, ∃ t ∈ (s.tables i).add pc s.history, s' = s.setTable i t := by
  induction is with
  | nil => cases h
  | cons i is ih =>
    simp only [addNext] at h
    split at h
    next t ht => exact ⟨i, List.mem_cons_self, t, ht, (Option.some.inj h).symm⟩
    next =>
      obtain ⟨j, hj, t, ht, hs'⟩ := ih h
      exact ⟨j, List.mem_cons_of_mem i hj, t, ht, hs'⟩

/-- The second loop adds nothing only when every table refuses. -/
theorem addNext_none {pc : Word} {is : List Nat} (h : s.addNext pc is = none) :
    ∀ i ∈ is, (s.tables i).add pc s.history = none := by
  induction is with
  | nil => simp
  | cons i is ih =>
    simp only [addNext] at h
    split at h
    next => cases h
    next hi =>
      intro j hj
      obtain rfl | hj := List.mem_cons.1 hj
      · exact hi
      · exact ih h j hj

/-- The third loop decays the tables it goes through, and no others. -/
theorem decayAll_tables {is : List Nat} (hnodup : is.Nodup) (s : TAGE β nTables idxLen)
    (pc : Word) (j : Nat) :
    (s.decayAll pc is).tables j =
      if j ∈ is then (s.tables j).decay pc s.history else s.tables j := by
  induction is generalizing s with
  | nil => simp [decayAll]
  | cons i is ih =>
    obtain ⟨hi, hnodup⟩ := List.nodup_cons.1 hnodup
    show ((s.setTable i ((s.tables i).decay pc s.history)).decayAll pc is).tables j = _
    rw [ih hnodup]
    by_cases hj : j = i
    · subst hj
      rw [if_neg hi, if_pos List.mem_cons_self, setTable_self]
    · rw [setTable_of_ne s hj]
      simp [setTable, hj]

/-- What `s'` has from `s`: all but the tables. -/
def OnlyTables (s s' : TAGE β nTables idxLen) : Prop := s' = { s with tables := s'.tables }

section
variable {s' : TAGE β nTables idxLen}

theorem OnlyTables.trans {s'' : TAGE β nTables idxLen} (h : OnlyTables s s')
    (h' : OnlyTables s' s'') : OnlyTables s s'' := by
  unfold OnlyTables at *
  rw [h', h]

/-- What does not read the tables is the same. -/
theorem OnlyTables.congr {α : Type} (h : OnlyTables s s') (f : TAGE β nTables idxLen → α)
    (hf : ∀ tables, f { s with tables := tables } = f s) : f s' = f s :=
  calc f s' = f { s with tables := s'.tables } := congrArg f h
    _ = f s := hf s'.tables

end

theorem trainTable_only (s : TAGE β nTables idxLen) (provider : Option Nat) (pc : Word)
    (taken : Bool) (useful : Int) : OnlyTables s (s.trainTable provider pc taken useful) := by
  cases provider <;> rfl

theorem trainProviders_only (s : TAGE β nTables idxLen) (pc : Word) (taken : Bool) :
    OnlyTables s (s.trainProviders pc taken) :=
  trainProviders_induction (P := OnlyTables s) rfl
    (fun t provider useful _ ht => ht.trans (trainTable_only t provider pc taken useful))

theorem decayAll_only (s : TAGE β nTables idxLen) (pc : Word) (is : List Nat) :
    OnlyTables s (s.decayAll pc is) := by
  induction is generalizing s with
  | nil => rfl
  | cons i is ih =>
    have hi : OnlyTables s (s.setTable i ((s.tables i).decay pc s.history)) := rfl
    apply hi.trans
    exact ih _

theorem above_nodup (s : TAGE β nTables idxLen) : s.above.Nodup := List.nodup_range'

theorem mem_above {i : Nat} : i ∈ s.above ↔ s.firstAbove ≤ i ∧ i < nTables := by
  simp only [above]
  rw [List.mem_range'_1]
  omega

/-- Everything an allocation can do: nothing, when it is not requested or there is no table
above the main provider; else one entry is added, or all tables refuse and decay. -/
theorem allocate_cases (s : TAGE β nTables idxLen) (randNum : Nat) (pc : Word) (taken : Bool) :
    ¬ (s.requestNewEntry taken = true ∧ s.firstAbove < nTables) ∧
      s.allocate randNum pc taken = s ∨
    (s.requestNewEntry taken = true ∧ s.firstAbove < nTables) ∧
      ((∃ i ∈ s.above, ∃ t ∈ (s.tables i).add pc s.history,
        s.allocate randNum pc taken = s.setTable i t) ∨
      (∀ i ∈ s.above, (s.tables i).add pc s.history = none) ∧
        s.allocate randNum pc taken = s.decayAll pc s.above) := by
  by_cases hreq : s.requestNewEntry taken = true ∧ s.firstAbove < nTables
  · have hcond : (s.requestNewEntry taken && decide (s.firstAbove < nTables)) = true := by
      simpa using hreq
    refine Or.inr ⟨hreq, ?_⟩
    rw [allocate, if_pos hcond]
    cases hrandom : s.addRandomly pc s.above randNum with
    | some s' => exact Or.inl (addRandomly_some hrandom)
    | none =>
      cases hnext : s.addNext pc s.above with
      | some s' => exact Or.inl (addNext_some hnext)
      | none => exact Or.inr ⟨addNext_none hnext, rfl⟩
  · have hcond : ¬ (s.requestNewEntry taken && decide (s.firstAbove < nTables)) = true := by
      simpa using hreq
    exact Or.inl ⟨hreq, by rw [allocate, if_neg hcond]⟩

theorem allocate_only (s : TAGE β nTables idxLen) (randNum : Nat) (pc : Word) (taken : Bool) :
    OnlyTables s (s.allocate randNum pc taken) := by
  obtain ⟨_, heq⟩ | ⟨_, ⟨i, _, t, _, heq⟩ | ⟨_, heq⟩⟩ := allocate_cases s randNum pc taken
  · rw [heq]
    rfl
  · rw [heq]
    rfl
  · rw [heq]
    exact decayAll_only s pc _

theorem allocate_inRange (h : InRange s) (randNum : Nat) (pc : Word) (taken : Bool) :
    InRange (s.allocate randNum pc taken) := by
  obtain ⟨_, heq⟩ | ⟨_, ⟨i, _, t, ht, heq⟩ | ⟨_, heq⟩⟩ := allocate_cases s randNum pc taken
  · rw [heq]
    exact h
  · rw [heq]
    apply setTable_inRange h
    exact TagTable.add_inRange (h i) _ _ t ht
  · rw [heq]
    intro j
    rw [decayAll_tables s.above_nodup]
    split
    · exact TagTable.decay_inRange (h j) _ _
    · exact h j

theorem softReset_inRange (h : InRange s) : InRange s.softReset := by
  simp only [softReset]
  split
  · exact fun i => TagTable.softReset_inRange (h i) _
  · exact h

theorem update_inRange (h : InRange s) (draw : ρ × Nat) (pc : Word) (taken : Bool) :
    InRange (s.update draw pc taken) := by
  have htrain := train_inRange h draw.1 pc taken
  have hshift : InRange (s.beforeSoftReset draw pc taken) := allocate_inRange htrain draw.2 pc taken
  exact softReset_inRange hshift

theorem predict_inRange (h : InRange s) (pc : Word) : InRange (s.predict pc).2 := h

/-- Whatever is called, in whatever order. -/
theorem call_inRange (c : Call (ρ × Nat)) (h : InRange s) : InRange (call s c).2 := by
  cases c with
  | predict pc => exact predict_inRange h pc
  | predictAddon pc addon addonLen => exact predict_inRange h pc
  | update pc taken draw => exact update_inRange h draw pc taken
  | reset => exact reset_inRange s

theorem afterCalls_inRange (s : TAGE β nTables idxLen) (calls : List (Call (ρ × Nat))) :
    InRange (afterCalls s.reset calls) :=
  Mealy.run_invariant (fun _ c => call_inRange c) (reset_inRange s) calls

theorem execute_inRange (b : Branch (ρ × Nat)) (h : InRange s) : InRange (execute s b).2 :=
  update_inRange (predict_inRange h b.pc) b.draw b.pc b.taken

theorem afterTrace_inRange (s : TAGE β nTables idxLen) (tr : List (Branch (ρ × Nat))) :
    InRange (afterTrace s.reset tr) :=
  Mealy.run_invariant (fun _ b => execute_inRange b) (reset_inRange s) tr

/-! ## The soft resets of a run -/

theorem beforeSoftReset_counts (s : TAGE β nTables idxLen) (draw : ρ × Nat) (pc : Word)
    (taken : Bool) :
    (s.beforeSoftReset draw pc taken).branchCount = s.branchCount ∧
      (s.beforeSoftReset draw pc taken).resetMask = s.resetMask := by
  have htrain := trainProviders_only s pc taken
  have halloc := allocate_only (s.train draw.1 pc taken) draw.2 pc taken
  refine ⟨?_, ?_⟩
  · calc (s.beforeSoftReset draw pc taken).branchCount
        = (s.train draw.1 pc taken).branchCount := halloc.congr branchCount (fun _ => rfl)
      _ = s.branchCount := htrain.congr branchCount (fun _ => rfl)
  · calc (s.beforeSoftReset draw pc taken).resetMask
        = (s.train draw.1 pc taken).resetMask := halloc.congr resetMask (fun _ => rfl)
      _ = s.resetMask := htrain.congr resetMask (fun _ => rfl)

theorem softReset_counts (s : TAGE β nTables idxLen) :
    s.softReset.branchCount = s.branchCount + 1 ∧
      s.softReset.resetMask =
        if s.branchCount + 1 = resetPeriod then s.resetMask ^^^ 3 else s.resetMask := by
  simp only [softReset, softResetCall]
  by_cases h : s.branchCount + 1 = resetPeriod
  · rw [if_pos h, if_pos h]
    exact ⟨rfl, rfl⟩
  · rw [if_neg h, if_neg h]
    exact ⟨rfl, rfl⟩

/-- The mask of the soft reset at update number `m`, counted from 1, as the period asks. -/
def periodicMask (m : Nat) : Option (BitVec 32) :=
  if 2 ^ 18 ∣ m then some (if m / 2 ^ 18 % 2 = 1 then 1 else 2) else none

/-- The table a soft reset stage leaves that calls `soft_reset` with this mask, or not at
all. -/
def agedBy {tagLen : Nat} (mask : Option (BitVec 32)) (t : TagTable idxLen tagLen) :
    TagTable idxLen tagLen :=
  match mask with
  | some mask => t.softReset mask
  | none => t

theorem softReset_tables (s : TAGE β nTables idxLen) (i : Nat) :
    s.softReset.tables i = agedBy s.softResetCall (s.tables i) := by
  simp only [softReset]
  cases s.softResetCall <;> rfl

/-- Every update of the run from `s` makes the soft reset its number asks for: it is that
mask that reaches the tables, and its soft reset stage leaves every table as that mask, or
no mask, leaves it. -/
def AgesPeriodically (s : TAGE β nTables idxLen) (tr : List (Branch (ρ × Nat))) : Prop :=
  ∀ m b, tr[m]? = some b →
    let s' := afterTrace s (tr.take m)
    let t := (predict s' b.pc).2.beforeSoftReset b.draw b.pc b.taken
    t.softResetCall = periodicMask (m + 1) ∧
      ∀ i, (execute s' b).2.tables i = agedBy (periodicMask (m + 1)) (t.tables i)

theorem ofNat_eq_resetPeriod {m : Nat} (hm : m < 2 ^ 64) :
    BitVec.ofNat 64 m = resetPeriod ↔ m = 2 ^ 18 := by
  have hperiod : resetPeriod.toNat = 2 ^ 18 := by decide
  rw [← BitVec.toNat_inj, hperiod, BitVec.toNat_ofNat, Nat.mod_eq_of_lt hm]

/-- What the counts are after a run. The branch count never returns to 0: it is the
number of updates. -/
theorem afterTrace_counts (s : TAGE β nTables idxLen) (tr : List (Branch (ρ × Nat))) :
    (afterTrace s.reset tr).branchCount = BitVec.ofNat 64 tr.length ∧
      (tr.length < 2 ^ 64 →
        (afterTrace s.reset tr).resetMask = if tr.length < 2 ^ 18 then 1 else 2) := by
  refine Mealy.run_induction (P := fun tr (t : TAGE β nTables idxLen) =>
    t.branchCount = BitVec.ofNat 64 tr.length ∧
      (tr.length < 2 ^ 64 → t.resetMask = if tr.length < 2 ^ 18 then 1 else 2)) ⟨rfl, fun _ => rfl⟩
    ?_ tr
  intro tr t b ih
  obtain ⟨hcount, hmask⟩ := ih
  obtain ⟨hcount', hmask'⟩ :=
    softReset_counts ((predict t b.pc).2.beforeSoftReset b.draw b.pc b.taken)
  obtain ⟨hbefore, hbefore'⟩ := beforeSoftReset_counts (predict t b.pc).2 b.draw b.pc b.taken
  have hpredict : (predict t b.pc).2.branchCount = BitVec.ofNat 64 tr.length := hcount
  have hpredict' : (predict t b.pc).2.resetMask = t.resetMask := rfl
  rw [hbefore, hpredict] at hcount' hmask'
  rw [hbefore', hpredict'] at hmask'
  have hnext : BitVec.ofNat 64 tr.length + 1 = BitVec.ofNat 64 (tr ++ [b]).length := by
    rw [List.length_append, BitVec.ofNat_add]; rfl
  rw [hnext] at hcount' hmask'
  refine ⟨hcount', ?_⟩
  intro hlen
  apply hmask'.trans
  simp only [ofNat_eq_resetPeriod hlen]
  rw [List.length_append, List.length_singleton] at hlen ⊢
  rw [hmask (by omega)]
  split_ifs <;> first | rfl | omega

/-- The soft reset the update after `tr` makes. -/
theorem softResetCall_afterTrace (s : TAGE β nTables idxLen) (tr : List (Branch (ρ × Nat)))
    (b : Branch (ρ × Nat)) (hlen : tr.length + 1 < 2 ^ 64) :
    let t := (predict (afterTrace s.reset tr) b.pc).2
    (t.beforeSoftReset b.draw b.pc b.taken).softResetCall =
      if tr.length + 1 = 2 ^ 18 then some 1 else none := by
  intro t
  obtain ⟨hcount, hmask⟩ := afterTrace_counts s tr
  obtain ⟨hbefore, hbefore'⟩ := beforeSoftReset_counts t b.draw b.pc b.taken
  have hcount' : t.branchCount = BitVec.ofNat 64 tr.length := hcount
  have hmask' : t.resetMask = if tr.length < 2 ^ 18 then 1 else 2 := hmask (by omega)
  have hnext : BitVec.ofNat 64 tr.length + 1 = BitVec.ofNat 64 (tr.length + 1) := by
    rw [BitVec.ofNat_add]; rfl
  simp only [softResetCall]
  rw [hbefore, hbefore', hcount', hmask', hnext]
  simp only [ofNat_eq_resetPeriod hlen]
  split_ifs <;> first | rfl | omega

/-- The second soft reset never comes. -/
theorem not_agesPeriodically (s : TAGE β nTables idxLen) {tr : List (Branch (ρ × Nat))}
    (h : 2 * 2 ^ 18 ≤ tr.length) : ¬ AgesPeriodically s.reset tr := by
  intro hages
  have hlt : 2 * 2 ^ 18 - 1 < tr.length := by omega
  have hcall := (hages _ _ (List.getElem?_eq_getElem hlt)).1
  have hlen : (tr.take (2 * 2 ^ 18 - 1)).length = 2 * 2 ^ 18 - 1 := by
    rw [List.length_take]; omega
  rw [softResetCall_afterTrace s _ _ (by omega), hlen] at hcall
  exact absurd hcall (by decide)

/-- **The useful bits are aged once.** A run from reset makes exactly the soft resets its
period asks for if and only if it ends before the second is due. -/
theorem agesPeriodically_iff (s : TAGE β nTables idxLen) (tr : List (Branch (ρ × Nat))) :
    AgesPeriodically s.reset tr ↔ tr.length < 2 * 2 ^ 18 := by
  refine ⟨?_, ?_⟩
  · intro hages
    by_contra hlen
    exact not_agesPeriodically s (by omega) hages
  · intro hlen m b hb
    have hm : m < tr.length := (List.getElem?_eq_some_iff.1 hb).1
    have htake : (tr.take m).length = m := by rw [List.length_take]; omega
    have hcall := softResetCall_afterTrace s (tr.take m) b (by omega)
    rw [htake] at hcall
    have hperiodic : periodicMask (m + 1) = if m + 1 = 2 ^ 18 then some 1 else none := by
      simp only [periodicMask]
      by_cases hperiod : m + 1 = 2 ^ 18
      · rw [if_pos hperiod, hperiod]
        rfl
      · -- below two periods the period divides only itself
        have hndvd : ¬ 2 ^ 18 ∣ m + 1 := by omega
        rw [if_neg hperiod, if_neg hndvd]
    rw [← hperiodic] at hcall
    refine ⟨hcall, ?_⟩
    intro i
    rw [← hcall]
    exact softReset_tables _ i

/-- `2^19` executions of one branch. -/
theorem second_softReset_missed :
    ¬ AgesPeriodically (new StaticTaken.mk 1 4)
      (List.replicate (2 ^ 19) ⟨0x400a10, true, ((), 0)⟩) :=
  not_agesPeriodically _ (by rw [List.length_replicate]; decide)

end TAGE

end SandboxPredictor
