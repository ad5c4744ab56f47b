import SandboxPredictor.TageProviders

/- What one update of TAGE can change in the tagged tables, the soft reset left
   aside.

   The three loops of the allocation share one flag. Whatever the random bits,
   either one of them adds an entry in one table and the rest is skipped, or no
   table had an entry that is not useful, and the third loop ages them all
   (`allocate_cases`). The training before it touches the tables of the two
   providers only, which are not above the main one. -/
namespace SandboxPredictor
namespace TAGE

variable {β ρ : Type} [Predictor β ρ] {nTables idxLen : Nat}

/-- The entry of table `i` the branch is looked for in. -/
def entryAt (t : TAGE β nTables idxLen) (pc : Word) (i : Nat) : TageEntry :=
  (t.tables i).content ((t.tables i).getIdx pc t.history)

/-- Table `i` with its entry for the branch replaced. -/
def withEntry (t : TAGE β nTables idxLen) (pc : Word) (i : Nat) (e : TageEntry) :
    TagTable idxLen (2 <<< i) :=
  (t.tables i).setEntry ((t.tables i).getIdx pc t.history) e

/-- The state with another history. -/
def withHistory (u : TAGE β nTables idxLen) (history : Word) : TAGE β nTables idxLen :=
  { u with history := history }

/-- Between `t` and `u`, table `j` above the main provider has given an entry that is not
useful to the branch, and no other table above the main provider has changed. -/
structure AllocatedIn (t u : TAGE β nTables idxLen) (pc : Word) (j : Nat) : Prop where
  above : j ∈ t.above
  free : (t.entryAt pc j).useful = 0
  entry : u.tables j = t.withEntry pc j ⟨(t.tables j).getTag pc t.history, 0, 0⟩
  others : ∀ i ∈ t.above, i ≠ j → u.tables i = t.tables i

/-- From `t` to `u` only the entries the branch is looked for in have changed. -/
def SameElsewhere (t u : TAGE β nTables idxLen) (pc : Word) : Prop :=
  ∀ i idx, idx ≠ (t.tables i).getIdx pc t.history →
    (u.tables i).content idx = (t.tables i).content idx

section
variable {t : TAGE β nTables idxLen} {pc : Word} {draw : ρ × Nat} {taken : Bool} {i j : Nat}

/-- The tables before the soft reset are those the allocation leaves. -/
theorem beforeSoftReset_tables (t : TAGE β nTables idxLen) (draw : ρ × Nat) (pc : Word)
    (taken : Bool) : (t.beforeSoftReset draw pc taken).tables =
      ((t.train draw.1 pc taken).allocate draw.2 pc taken).tables := rfl

theorem train_above_eq (t : TAGE β nTables idxLen) (draw : ρ) (pc : Word) (taken : Bool) :
    (t.train draw pc taken).above = t.above := by
  simp only [above, train_firstAbove]

/-- Everything an update can do to the tables above the main provider. -/
theorem beforeSoftReset_above (hrange : InRange t) (h : Predicted t pc) (draw : ρ × Nat)
    (taken : Bool) :
    ¬ (t.requestNewEntry taken = true ∧ t.firstAbove < nTables) ∧
        (∀ i ∈ t.above, (t.beforeSoftReset draw pc taken).tables i = t.tables i) ∨
      (t.requestNewEntry taken = true ∧ t.firstAbove < nTables) ∧
        ((∃ j, AllocatedIn t (t.beforeSoftReset draw pc taken) pc j) ∨
        (∀ i ∈ t.above, (t.entryAt pc i).useful ≠ 0) ∧
          ∀ i ∈ t.above, (t.beforeSoftReset draw pc taken).tables i =
            t.withEntry pc i { t.entryAt pc i with useful := (t.entryAt pc i).useful - 1 }) := by
  have hsame : ∀ i ∈ t.above, (t.train draw.1 pc taken).tables i = t.tables i :=
    fun i hi => train_above h draw.1 taken (mem_above.1 hi).1
  have hhist := train_history t draw.1 pc taken
  have hcases := allocate_cases (t.train draw.1 pc taken) draw.2 pc taken
  rw [train_requestNewEntry, train_firstAbove, train_above_eq, hhist] at hcases
  rw [beforeSoftReset_tables]
  obtain ⟨hno, heq⟩ | ⟨hreq, ⟨j, hj, t', ht', heq⟩ | ⟨hfull, heq⟩⟩ := hcases
  · left
    rw [heq]
    exact ⟨hno, hsame⟩
  · right
    refine ⟨hreq, Or.inl ⟨j, ?_⟩⟩
    rw [hsame j hj] at ht'
    obtain ⟨hfree, hentry⟩ := TagTable.add_eq_some ht'
    refine ⟨hj, hfree, ?_, ?_⟩
    · rw [beforeSoftReset_tables, heq, setTable_self]
      exact hentry
    · intro i hi hne
      rw [beforeSoftReset_tables, heq, setTable_of_ne _ hne]
      exact hsame i hi
  · right
    have hnone : ∀ i ∈ t.above, (t.tables i).add pc t.history = none := by
      intro i hi
      rw [← hsame i hi]
      exact hfull i hi
    refine ⟨hreq, Or.inr ⟨?_, ?_⟩⟩
    · intro i hi
      exact (TagTable.add_eq_none_iff pc t.history).1 (hnone i hi)
    · intro i hi
      rw [heq, decayAll_tables t.above_nodup, if_pos hi, hsame i hi, hhist]
      exact TagTable.decay_eq (hrange i) (hnone i hi)

/-- A table that gave an entry to the branch is no longer the same. -/
theorem AllocatedIn.ne {u : TAGE β nTables idxLen} (h : AllocatedIn t u pc j)
    (hrange : InRange t) (hpred : Predicted t pc) : u.tables j ≠ t.tables j := by
  obtain ⟨hfirst, hlt⟩ := mem_above.1 h.above
  have hmiss := hpred.above j hfirst hlt
  intro heq
  have htag : (t.tables j).getTag pc t.history = (t.entryAt pc j).tag := by
    have hcontent := congrArg (fun v => (TagTable.content v ((t.tables j).getIdx pc t.history)).tag)
      (h.entry.symm.trans heq)
    simpa [withEntry, entryAt, TagTable.setEntry] using hcontent
  rw [(TagTable.lookup_valid_iff (hrange j) pc t.history).2 htag] at hmiss
  cases hmiss

/-- One table at most gives an entry. -/
theorem AllocatedIn.unique {u : TAGE β nTables idxLen} (hrange : InRange t)
    (hpred : Predicted t pc) (hi : AllocatedIn t u pc i) (hj : AllocatedIn t u pc j) : i = j := by
  by_contra hne
  exact hi.ne hrange hpred (hj.others i hi.above hne)

/-- A lookup with the history of the update finds the new entry first. -/
theorem AllocatedIn.provides {u : TAGE β nTables idxLen} (h : AllocatedIn t u pc j)
    (hpred : Predicted t pc) :
    ((u.withHistory t.history).predict pc).2.mainProvider = some j := by
  obtain ⟨hfirst, hlt⟩ := mem_above.1 h.above
  rw [mainProvider_eq_some_iff]
  refine ⟨hlt, ?_, ?_⟩
  · show ((u.tables j).lookup pc t.history).valid = true
    rw [h.entry]
    have hfound : (t.withEntry pc j ⟨(t.tables j).getTag pc t.history, 0, 0⟩).lookup pc
        t.history = ⟨(t.tables j).getTag pc t.history, 0, 0⟩ :=
      TagTable.lookup_setEntry _ _ _ rfl
    rw [hfound]
    rfl
  · intro k hjk hk
    show ((u.tables k).lookup pc t.history).valid = false
    rw [h.others k (mem_above.2 ⟨by omega, hk⟩) (by omega)]
    exact hpred.above k (by omega) hk

/-- Replacing a table by one that differs at the entry of the branch only. -/
theorem SameElsewhere.setTable {u : TAGE β nTables idxLen} (h : SameElsewhere t u pc)
    {v : TagTable idxLen (2 <<< j)}
    (hv : ∀ idx, idx ≠ (t.tables j).getIdx pc t.history →
      v.content idx = (u.tables j).content idx) : SameElsewhere t (u.setTable j v) pc := by
  intro i idx hidx
  by_cases hi : i = j
  · subst hi
    rw [setTable_self, hv idx hidx]
    exact h i idx hidx
  · rw [setTable_of_ne u hi]
    exact h i idx hidx

theorem train_elsewhere (t : TAGE β nTables idxLen) (draw : ρ) (pc : Word) (taken : Bool) :
    SameElsewhere t (t.train draw pc taken) pc := by
  have hproviders : (t.trainProviders pc taken).history = t.history ∧
      SameElsewhere t (t.trainProviders pc taken) pc := by
    apply trainProviders_induction
      (P := fun u => u.history = t.history ∧ SameElsewhere t u pc) ⟨rfl, fun _ _ _ => rfl⟩
    intro u provider useful _ hu
    obtain ⟨hhist, hsame⟩ := hu
    cases provider with
    | none => exact ⟨hhist, hsame⟩
    | some k =>
      refine ⟨hhist, hsame.setTable ?_⟩
      intro idx hidx
      apply TagTable.update_ne
      rw [hhist]
      exact hidx
  exact hproviders.2

theorem allocate_elsewhere (t : TAGE β nTables idxLen) (randNum : Nat) (pc : Word)
    (taken : Bool) : SameElsewhere t (t.allocate randNum pc taken) pc := by
  obtain ⟨_, heq⟩ | ⟨_, ⟨j, _, t', ht', heq⟩ | ⟨_, heq⟩⟩ := allocate_cases t randNum pc taken
  · rw [heq]
    exact fun _ _ _ => rfl
  · rw [heq]
    have hself : SameElsewhere t t pc := fun _ _ _ => rfl
    apply hself.setTable
    intro idx hidx
    rw [(TagTable.add_eq_some ht').2]
    exact TagTable.setEntry_ne _ hidx
  · rw [heq]
    intro i idx hidx
    rw [decayAll_tables t.above_nodup]
    split
    · exact TagTable.setEntry_ne _ hidx
    · rfl

theorem beforeSoftReset_elsewhere (t : TAGE β nTables idxLen) (draw : ρ × Nat) (pc : Word)
    (taken : Bool) : SameElsewhere t (t.beforeSoftReset draw pc taken) pc := by
  intro i idx hidx
  have htrain := train_elsewhere t draw.1 pc taken i idx hidx
  have hallocate := allocate_elsewhere (t.train draw.1 pc taken) draw.2 pc taken i idx
  rw [train_history] at hallocate
  rw [beforeSoftReset_tables, hallocate hidx, htrain]

/-- Of the tables below the main provider only the alternative one is trained. -/
theorem beforeSoftReset_below {m : Nat} (hmain : t.mainProvider = some m) (hi : i < m)
    (halt : t.altProvider ≠ some i) (draw : ρ × Nat) (taken : Bool) :
    (t.beforeSoftReset draw pc taken).tables i = t.tables i := by
  have hfirst : i < (t.train draw.1 pc taken).firstAbove := by
    rw [train_firstAbove, firstAbove, hmain]
    exact Nat.lt_succ_of_lt hi
  have hne : t.mainProvider ≠ some i := by
    rw [hmain]
    intro he
    exact absurd (Option.some.inj he) (by omega)
  rw [beforeSoftReset_tables, allocate_below hfirst]
  exact trainProviders_other hne halt pc taken

end

/-- **One allocation or a uniform decay, and nothing else.** For the update of the branch
just predicted, in every state that any calls lead to, whatever the random bits: an
allocation that is requested goes to exactly one of the tables above the main provider if
one of their entries for the branch is not useful, and this table is then the main provider;
if all are useful, each loses one of its useful counter; if none is requested, no table
above changes. No other entry changes, nor any table below the main provider but the
alternative one. -/
theorem allocates_once_or_decays (s : TAGE β nTables idxLen) (calls : List (Call (ρ × Nat)))
    (pc : Word) (taken : Bool) (draw : ρ × Nat) :
    let t := (predict (afterCalls s.reset calls) pc).2
    let u := t.beforeSoftReset draw pc taken
    (t.requestNewEntry taken = true → (∃ i ∈ t.above, (t.entryAt pc i).useful = 0) →
      ∃! j, AllocatedIn t u pc j) ∧
    (t.requestNewEntry taken = true → (∀ i ∈ t.above, (t.entryAt pc i).useful ≠ 0) →
      ∀ i ∈ t.above, u.tables i =
        t.withEntry pc i { t.entryAt pc i with useful := (t.entryAt pc i).useful - 1 }) ∧
    (t.requestNewEntry taken = false → ∀ i ∈ t.above, u.tables i = t.tables i) ∧
    SameElsewhere t u pc ∧
    (∀ m i, t.mainProvider = some m → i < m → t.altProvider ≠ some i →
      u.tables i = t.tables i) ∧
    (∀ j, AllocatedIn t u pc j →
      ((u.withHistory t.history).predict pc).2.mainProvider = some j) := by
  intro t u
  have hrange : InRange t := predict_inRange (afterCalls_inRange s calls) pc
  have hpred : Predicted t pc := predict_predicted _ pc
  have hcases := beforeSoftReset_above hrange hpred draw taken
  have hexists : ∀ i ∈ t.above, t.firstAbove < nTables := by
    intro i hi
    obtain ⟨hfirst, hlt⟩ := mem_above.1 hi
    omega
  refine ⟨?_, ?_, ?_, beforeSoftReset_elsewhere t draw pc taken, ?_, ?_⟩
  · intro hreq ⟨i, hi, hfree⟩
    obtain ⟨hno, _⟩ | ⟨_, ⟨j, hj⟩ | ⟨hfull, _⟩⟩ := hcases
    · exact absurd ⟨hreq, hexists i hi⟩ hno
    · exact ⟨j, hj, fun k hk => hk.unique hrange hpred hj⟩
    · exact absurd hfree (hfull i hi)
  · intro hreq hfull i hi
    obtain ⟨hno, _⟩ | ⟨_, ⟨j, hj⟩ | ⟨_, hdecayed⟩⟩ := hcases
    · exact absurd ⟨hreq, hexists i hi⟩ hno
    · exact absurd hj.free (hfull j hj.above)
    · exact hdecayed i hi
  · intro hreq
    obtain ⟨_, hsame⟩ | ⟨hyes, _⟩ := hcases
    · exact hsame
    · rw [hreq] at hyes
      cases hyes.1
  · intro m i hmain hi halt
    exact beforeSoftReset_below hmain hi halt draw taken
  · intro j hj
    exact hj.provides hpred

end TAGE
end SandboxPredictor
