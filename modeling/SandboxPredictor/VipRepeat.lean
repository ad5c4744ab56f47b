import SandboxPredictor.VipDefault

/- Which branches VIP keeps private predictors for, over an SLRU miss cache.

   The cache is accessed when the default prediction was wrong, so what its lists
   count are the mispredictions of the default predictor (`execute_counted`): one at
   least for a pc of the probationary segment, two for one of the protected segment,
   of which alone a snapshot is taken. A branch with an index has therefore been
   mispredicted twice before (`consults_repeat_offenders`). -/
namespace SandboxPredictor
namespace VIP

variable {δ ρ π : Type} [Predictor δ ρ] [Predictor π Unit] {n snapInterval ghrLen : Nat}

/-- The pair is of `pc`, and its default prediction is wrong. -/
def defaultMiss (pc : Word) (s : VIP δ π n snapInterval ghrLen) (b : Branch (ρ × Nat)) : Bool :=
  decide (b.pc = pc ∧ b.taken ≠ (Predictor.predict s.defaultBP b.pc).1.taken)

/-- How often a run has mispredicted `pc` by its default predictor. -/
def defaultMisses (s : VIP δ π n snapInterval ghrLen) (tr : List (Branch (ρ × Nat)))
    (pc : Word) : Nat :=
  (Mealy.observe execute (defaultMiss pc) s tr).countP id

/-- An SLRU cache whose segments hold lists that `count` counts. -/
def Counted (c : MissCache (n + 1)) (count : Word → Nat) : Prop :=
  ∃ (c' : SLRUMCache (n + 1)) (m : SegmentedLRU.Lists Word),
    c = .slru c' ∧ c'.Refines m ∧ m.Counted count

/-! ## The miss cache -/

section
variable {c : MissCache (n + 1)} {count count' : Word → Nat}

theorem Counted.mono (h : Counted c count) (hle : ∀ pc, count pc ≤ count' pc) :
    Counted c count' := by
  obtain ⟨c', m, hc, hrefines, hm⟩ := h
  exact ⟨c', m, hc, hrefines, hm.mono hle⟩

theorem Counted.access (h : Counted c count) (hle : ∀ pc, count pc ≤ count' pc) {pc : Word}
    (hpc : pc ≠ 0) (hlt : count pc < count' pc) (randBase : Nat) :
    Counted (c.access pc randBase).2 count' := by
  obtain ⟨c', m, rfl, hrefines, hm⟩ := h
  exact ⟨(c'.access pc).2, SegmentedLRU.access (n + 1) m pc, rfl,
    SLRUMCache.access_refines hrefines hpc, hm.access hle hlt⟩

theorem Counted.snapshot (h : Counted c count) : Counted c.snapshot count := by
  obtain ⟨c', m, rfl, hrefines, hm⟩ := h
  -- the segments are the same
  exact ⟨c'.snapshot, m, rfl, ⟨hrefines.prot, hrefines.prob, hrefines.apart, hrefines.nonzero⟩, hm⟩

/-- A pc in a slot of the protected segment is counted twice. -/
theorem Counted.slot (h : Counted c count) {i : Fin (n + 1)} {pc : Word}
    (hi : c.slots i = some pc) : 2 ≤ count pc := by
  obtain ⟨c', m, rfl, hrefines, hm⟩ := h
  apply hm.prot
  exact hrefines.prot.spells.mem_of_slots hi

end

/-! ## Runs -/

section
variable {s : VIP δ π n snapInterval ghrLen}

theorem defaultMisses_snoc (s : VIP δ π n snapInterval ghrLen) (tr : List (Branch (ρ × Nat)))
    (b : Branch (ρ × Nat)) (pc : Word) :
    defaultMisses s (tr ++ [b]) pc =
      defaultMisses s tr pc + if defaultMiss pc (afterTrace s tr) b then 1 else 0 := by
  simp only [defaultMisses]
  rw [Mealy.observe_snoc, List.countP_append]
  simp

omit [Predictor π Unit] in
/-- A pair keeps its miss cache counted by the mispredictions. -/
theorem execute_counted {count : Word → Nat} (h : Counted s.mCache count) {b : Branch (ρ × Nat)}
    (hb : b.pc ≠ 0) :
    Counted (s.accessed b) (fun pc => count pc + if defaultMiss pc s b then 1 else 0) := by
  simp only [accessed]
  split
  · next hwrong =>
    apply h.access (fun pc => Nat.le_add_right _ _) hb
    simp [defaultMiss, hwrong]
  · exact h.mono (fun pc => Nat.le_add_right _ _)

/-- The miss cache of a run is counted by the mispredictions, and so is the last snapshot. -/
theorem afterTrace_counted {c : SLRUMCache (n + 1)} (hc : s.mCache = .slru c)
    {tr : List (Branch (ρ × Nat))} (htr : ∀ b ∈ tr, b.pc ≠ 0) :
    Counted (afterTrace s.reset tr).mCache (defaultMisses s.reset tr) ∧
      Counted (lastSnapshot s.reset tr) (defaultMisses s.reset tr) := by
  induction tr using List.reverseRecOn with
  | nil =>
    have hreset : Counted s.reset.mCache (defaultMisses s.reset []) :=
      ⟨c.reset, SegmentedLRU.Lists.empty, by simp [reset, hc, MissCache.reset],
        c.reset_refines, SegmentedLRU.Lists.Counted.empty _⟩
    exact ⟨hreset, hreset⟩
  | append_singleton tr b ih =>
    obtain ⟨hcache, hlast⟩ := ih (fun b hb => htr b (List.mem_append_left _ hb))
    have hb := htr b (List.mem_append_right _ (List.mem_singleton_self b))
    have hmisses : defaultMisses s.reset (tr ++ [b]) = fun pc => defaultMisses s.reset tr pc +
        if defaultMiss pc (afterTrace s.reset tr) b then 1 else 0 := by
      funext pc
      exact defaultMisses_snoc s.reset tr b pc
    have haccessed := execute_counted hcache hb
    rw [hmisses, lastSnapshot_snoc, afterTrace, Mealy.run_snoc, execute_mCache]
    simp only [atSnapshot]
    split
    · exact ⟨haccessed.snapshot, haccessed⟩
    · exact ⟨haccessed, hlast.mono (fun pc => Nat.le_add_right _ _)⟩

/-- **Only repeat offenders have a private predictor.** After every run of nonzero pcs from
reset over an SLRU cache, a branch for which `predict` finds an index has been mispredicted
by the default predictor in two earlier pairs at least. -/
theorem consults_repeat_offenders (s : VIP δ π n snapInterval ghrLen) {c : SLRUMCache (n + 1)}
    (hc : s.mCache = .slru c) (tr : List (Branch (ρ × Nat))) (htr : ∀ b ∈ tr, b.pc ≠ 0)
    {pc : Word} (hpc : pc ≠ 0) (hidx : (afterTrace s.reset tr).mCache.getIdx pc ≠ none) :
    2 ≤ defaultMisses s.reset tr pc := by
  obtain ⟨i, hi⟩ := Option.ne_none_iff_exists'.1 hidx
  have htracks : (afterTrace s.reset tr).mCache.Tracks (lastSnapshot s.reset tr) :=
    afterTrace_tracks (by rw [hc]; trivial) htr
  apply (afterTrace_counted hc htr).2.slot
  exact (htracks.getIdx_iff hpc i).1 hi

end

/-- Two wrong predictions of the static predictor, and a snapshot after each. -/
theorem consults_repeat_offenders_static :
    let s : VIP StaticTaken (Perceptron 8 128 9) 1 1 8 :=
      VIP.new ⟨⟩ (Perceptron.new 8 128 9) (.slru SLRUMCache.twoEntries) 1 8
    2 ≤ defaultMisses s.reset [⟨5, false, ((), 0)⟩, ⟨5, false, ((), 0)⟩] 5 := by
  intro s
  apply consults_repeat_offenders s rfl _ (by simp) (by decide)
  decide

end VIP
end SandboxPredictor
