import SandboxPredictor.Gshare
import SandboxPredictor.TageProviders

/- `TAGE` over a `Gshare` base: the two history registers of a run.

   The base takes the outcome by `update` or by `updateHistory`, and shifts it in
   either way; TAGE shifts it into its own register after everything that reads
   it, and masks the register. So the two agree on the bits TAGE keeps, and what an
   update trains is what the prediction of the pair has read (`same_history`). -/
namespace SandboxPredictor
open ShiftRegister
namespace TAGE

variable {nTables idxLen len counterLen : Nat}

theorem shiftIn_and_lowMask (h : Word) (b : Bool) (n : Nat) :
    shiftIn (h &&& lowMask n) b &&& lowMask n = shiftIn h b &&& lowMask n := by
  apply BitVec.eq_of_getLsbD_eq
  intro i hi
  rw [BitVec.getLsbD_and, BitVec.getLsbD_and, shiftIn_getLsbD _ b hi, shiftIn_getLsbD _ b hi,
    lowMask_getLsbD n hi, BitVec.getLsbD_and, lowMask_getLsbD n (by omega)]
  by_cases h0 : i = 0
  · simp [h0]
  · by_cases hn : i < n
    · have hn' : i - 1 < n := by omega
      simp [h0, hn, hn']
    · simp [hn]

section
variable (s : TAGE (Gshare len counterLen) nTables idxLen) (b : Branch (Unit × Nat))

/-- The base shifts the outcome in, whichever way it is told. -/
theorem execute_baseHistory :
    (execute s b).2.baseBP.history = shiftIn s.baseBP.history b.taken := by
  rw [execute_baseBP]
  split <;> rfl

/-- The registers after a run. -/
theorem afterTrace_histories (tr : List (Branch (Unit × Nat))) :
    Records (afterTrace s.reset tr).baseBP.history (tr.map Branch.taken) ∧
      (afterTrace s.reset tr).history =
        (afterTrace s.reset tr).baseBP.history &&& lowMask (ghrLen nTables) := by
  refine Mealy.run_induction (P := fun tr (t : TAGE (Gshare len counterLen) nTables idxLen) =>
    Records t.baseBP.history (tr.map Branch.taken) ∧
      t.history = t.baseBP.history &&& lowMask (ghrLen nTables)) ⟨Records.nil, ?_⟩ ?_ tr
  · exact BitVec.zero_and.symm
  · intro tr t b ih
    obtain ⟨hbase, hsame⟩ := ih
    refine ⟨?_, ?_⟩
    · rw [execute_baseHistory, List.map_append, List.map_singleton]
      exact hbase.shiftIn b.taken
    · rw [execute_history, execute_baseHistory, hsame]
      exact shiftIn_and_lowMask _ _ _

end

/-! ## What is trained -/

/-- The index at which table `i` is looked up for the branch. -/
def consultedIdx (s : TAGE (Gshare len counterLen) nTables idxLen) (pc : Word) (i : Nat) : Word :=
  (s.tables i).getIdx pc s.history

/-- The state after the training stages of a pair. -/
def trained (s : TAGE (Gshare len counterLen) nTables idxLen) (b : Branch (Unit × Nat)) :
    TAGE (Gshare len counterLen) nTables idxLen :=
  (s.predict b.pc).2.train b.draw.1 b.pc b.taken

/-- The entry of table `i` that the lookup of the branch has read has its tag, keeps it,
and takes the outcome. -/
structure TakesOutcome (s : TAGE (Gshare len counterLen) nTables idxLen)
    (b : Branch (Unit × Nat)) (i : Nat) : Prop where
  tag : ((s.tables i).content (s.consultedIdx b.pc i)).tag = (s.tables i).getTag b.pc s.history
  sameTag : (((s.trained b).tables i).content (s.consultedIdx b.pc i)).tag =
    (s.tables i).getTag b.pc s.history
  counter : (((s.trained b).tables i).content (s.consultedIdx b.pc i)).counter =
    Saturating.step TagTable.counterMin TagTable.counterMax b.taken
      ((s.tables i).content (s.consultedIdx b.pc i)).counter

/-- What a pair trains is what its prediction has read: the entries of the providers, and
of the base the counter at its index. -/
structure TrainsConsulted (s : TAGE (Gshare len counterLen) nTables idxLen)
    (b : Branch (Unit × Nat)) : Prop where
  main : ∀ i, (s.predict b.pc).2.mainProvider = some i →
    (s.predict b.pc).2.mainPred = (s.tables i).content (s.consultedIdx b.pc i) ∧
      s.TakesOutcome b i
  alt : ∀ i, (s.predict b.pc).2.altProvider = some i →
    (s.predict b.pc).2.altPred = (s.tables i).content (s.consultedIdx b.pc i) ∧
      ((s.predict b.pc).2.mainPred.useful = 0 → s.TakesOutcome b i)
  only : ∀ i idx, ((s.trained b).tables i).content idx ≠ (s.tables i).content idx →
    ((s.predict b.pc).2.mainProvider = some i ∨ (s.predict b.pc).2.altProvider = some i) ∧
      idx = s.consultedIdx b.pc i
  base : (s.trained b).baseBP.table =
    if s.TwoHits b.pc then s.baseBP.table
    else Function.update s.baseBP.table (s.baseBP.getIdx b.pc)
      (Saturating.step (Gshare.counterMin counterLen) (Gshare.counterMax counterLen) b.taken
        (s.baseBP.table (s.baseBP.getIdx b.pc)))

section
variable {s : TAGE (Gshare len counterLen) nTables idxLen} {b : Branch (Unit × Nat)}

/-- A table trained for a branch it hits takes the outcome in the branch's entry. -/
theorem takesOutcome_of_update (hs : InRange s) {i : Nat} (hhit : s.hit b.pc i = true)
    {useful : Int}
    (htrain : (s.trained b).tables i = (s.tables i).update b.pc s.history b.taken useful) :
    s.TakesOutcome b i := by
  have htag := (hit_iff hs b.pc i).1 hhit
  have hself := TagTable.update_self b.taken useful htag
  refine ⟨htag.symm, ?_, ?_⟩
  · rw [htrain]
    exact (congrArg TageEntry.tag hself).trans htag.symm
  · rw [htrain]
    exact congrArg TageEntry.counter hself

/-- The entry a table that hits provides is the one at the index of the lookup. -/
theorem lookup_of_hit (hs : InRange s) {i : Nat} (hhit : s.hit b.pc i = true) :
    (s.tables i).lookup b.pc s.history = (s.tables i).content (s.consultedIdx b.pc i) := by
  simp only [TagTable.lookup]
  rw [if_pos ((hit_iff hs b.pc i).1 hhit)]
  rfl

theorem trained_base : (s.trained b).baseBP.table =
    if s.TwoHits b.pc then s.baseBP.table
    else Function.update s.baseBP.table (s.baseBP.getIdx b.pc)
      (Saturating.step (Gshare.counterMin counterLen) (Gshare.counterMax counterLen) b.taken
        (s.baseBP.table (s.baseBP.getIdx b.pc))) := by
  have hbase : (s.trained b).baseBP = (execute s b).2.baseBP := by
    have hupdate := update_baseBP (s.predict b.pc).2 b.draw b.pc b.taken
    have htrain := trainProviders_only (s.predict b.pc).2 b.pc b.taken
    refine Eq.trans ?_ hupdate.symm
    exact htrain.congr (fun t => (t.trainBase b.draw.1 b.pc b.taken).baseBP) (fun _ => rfl)
  rw [hbase, execute_baseBP]
  split <;> rfl

theorem trained_main (hs : InRange s) {i : Nat}
    (hmain : (s.predict b.pc).2.mainProvider = some i) :
    (s.predict b.pc).2.mainPred = (s.tables i).content (s.consultedIdx b.pc i) ∧
      s.TakesOutcome b i := by
  have hhit := (mainProvider_eq_some_iff.1 hmain).2.1
  have hvalid : (s.predict b.pc).2.mainPred.valid = true := by rw [mainPred_valid, hmain]; rfl
  have halt : (s.predict b.pc).2.altProvider ≠ some i :=
    fun halt => absurd (altProvider_lt hmain halt) (Nat.lt_irrefl i)
  obtain ⟨useful, htrain⟩ := trainProviders_main hvalid hmain halt b.pc b.taken
  refine ⟨(mainPred_eq hmain).trans (lookup_of_hit hs hhit), ?_⟩
  exact takesOutcome_of_update hs hhit htrain

theorem trained_alt (hs : InRange s) {i : Nat}
    (halt : (s.predict b.pc).2.altProvider = some i) :
    (s.predict b.pc).2.altPred = (s.tables i).content (s.consultedIdx b.pc i) ∧
      ((s.predict b.pc).2.mainPred.useful = 0 → s.TakesOutcome b i) := by
  obtain ⟨m, hmain, hlt, hhit, _⟩ := altProvider_eq_some_iff.1 halt
  have hvalid : (s.predict b.pc).2.altPred.valid = true := by rw [altPred_valid, halt]; rfl
  have hne : (s.predict b.pc).2.mainProvider ≠ some i := by
    intro h
    obtain rfl := Option.some.inj (hmain.symm.trans h)
    omega
  refine ⟨(altPred_eq halt).trans (lookup_of_hit hs hhit), ?_⟩
  intro huseful
  have htrain := trainProviders_alt hvalid halt hne b.pc b.taken
  rw [if_pos huseful] at htrain
  exact takesOutcome_of_update hs hhit htrain

/-- Both calls train at the index of the lookup. -/
theorem trained_elsewhere {i : Nat} {idx : Word} (hidx : idx ≠ s.consultedIdx b.pc i) :
    ((s.trained b).tables i).content idx = (s.tables i).content idx := by
  refine (trainProviders_induction (s := (s.predict b.pc).2)
    (P := fun t : TAGE (Gshare len counterLen) nTables idxLen =>
      t.history = s.history ∧ (t.tables i).content idx = (s.tables i).content idx)
    ⟨rfl, rfl⟩ ?_).2
  intro t provider useful _ ⟨hhistory, ht⟩
  refine ⟨?_, ?_⟩
  · exact ((trainTable_only t provider b.pc b.taken useful).congr history
      (fun _ => rfl)).trans hhistory
  · by_cases hi : provider = some i
    · rw [hi, trainTable_self, hhistory, TagTable.update_ne (t := t.tables i) b.taken useful hidx]
      exact ht
    · rw [trainTable_of_ne hi]
      exact ht

theorem trained_only {i : Nat} {idx : Word}
    (hchange : ((s.trained b).tables i).content idx ≠ (s.tables i).content idx) :
    ((s.predict b.pc).2.mainProvider = some i ∨ (s.predict b.pc).2.altProvider = some i) ∧
      idx = s.consultedIdx b.pc i := by
  refine ⟨?_, ?_⟩
  · by_contra hprov
    obtain ⟨hmain, halt⟩ := not_or.1 hprov
    have hsame := trainProviders_other hmain halt b.pc b.taken
    exact hchange (congrArg (fun t => TagTable.content t idx) hsame)
  · by_contra hidx
    exact hchange (trained_elsewhere hidx)

theorem trains_consulted (hs : InRange s) (b : Branch (Unit × Nat)) : TrainsConsulted s b where
  main := fun _ => trained_main hs
  alt := fun _ => trained_alt hs
  only := fun _ _ => trained_only
  base := trained_base

end

/-- **One history.** After every pair of a run from reset, bit `i` of TAGE's register is the
`i`-th most recent outcome for the `GHRLen` bits it keeps, the base's register is the
outcomes in all its bits, so TAGE's is the base's under the mask; and the next pair trains
the entries and the counter that its prediction reads. -/
theorem same_history (s : TAGE (Gshare len counterLen) nTables idxLen)
    (tr : List (Branch (Unit × Nat))) :
    let t := afterTrace s.reset tr
    let outs := tr.map Branch.taken
    (∀ i < 64, t.history.getLsbD i =
      (decide (i < ghrLen nTables) && outs.reverse.getD i false)) ∧
    Records t.baseBP.history outs ∧
    t.history = t.baseBP.history &&& lowMask (ghrLen nTables) ∧
    ∀ b, TrainsConsulted t b := by
  intro t outs
  obtain ⟨hbase, hsame⟩ := afterTrace_histories s tr
  refine ⟨?_, hbase, hsame, ?_⟩
  · intro i hi
    rw [hsame, BitVec.getLsbD_and, lowMask_getLsbD _ hi, hbase i hi, Bool.and_comm]
  · exact trains_consulted (afterTrace_inRange s tr)

end TAGE
end SandboxPredictor
