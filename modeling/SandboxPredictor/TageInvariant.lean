import SandboxPredictor.TageMatch
import SandboxPredictor.TageProvenance

/- The invariant of the tables of TAGE.

   Whatever changes an entry keeps its counter in [-2, 1] and its useful counter in
   [0, 3], and gives it no tag but the masked one of a branch. So a useful counter
   of -1 never stands in a table, and says in `mainPred` and `altPred` that nothing
   was found. The update of a branch finds in the tables of the providers the tags
   that its prediction found there: training the main provider leaves the table of
   the alternative one. -/
namespace SandboxPredictor

namespace TAGE

variable {β ρ : Type} [Predictor β ρ] {nTables idxLen : Nat}

/-- What holds of the tables and of the reset mask between pairs. -/
structure Sound (s : TAGE β nTables idxLen) : Prop where
  inRange : InRange s
  tags : ∀ i idx, ((s.tables i).content idx).tag.toNat < 2 ^ (2 <<< i)
  resetMask : s.resetMask = 1 ∨ s.resetMask = 2

section
variable {s t : TAGE β nTables idxLen} {pc : Word} {a m : Nat}

theorem reset_sound (s : TAGE β nTables idxLen) : Sound s.reset :=
  ⟨reset_inRange s, fun _ _ => Nat.two_pow_pos _, Or.inl rfl⟩

/-- A pair gives an entry the tag of its branch, or leaves the tag. -/
theorem execute_tags (h : Sound s) (b : Branch (ρ × Nat)) (i : Nat) (idx : Word) :
    (((execute s b).2.tables i).content idx).tag.toNat < 2 ^ (2 <<< i) := by
  have htag := execute_tag s b i idx
  cases halloc : s.allocation b with
  | none =>
    rw [halloc] at htag
    rw [Option.some.inj htag]
    exact h.tags i idx
  | some x =>
    rw [halloc] at htag
    simp only [allocatedAt] at htag
    split at htag
    next hx =>
      obtain ⟨j, _, hj⟩ := Option.map_eq_some_iff.1 halloc
      rw [Option.some.inj htag, ← hj]
      rw [← hj] at hx
      rw [← hx.1]
      exact and_lowMask_toNat_lt _ _
    next =>
      rw [Option.some.inj htag]
      exact h.tags i idx

/-- The soft reset changes between the masks 1 and 2. -/
theorem execute_resetMask (h : Sound s) (b : Branch (ρ × Nat)) :
    (execute s b).2.resetMask = 1 ∨ (execute s b).2.resetMask = 2 := by
  have hbefore := (beforeSoftReset_counts (s.predict b.pc).2 b.draw b.pc b.taken).2
  have hmask := h.resetMask
  show ((s.predict b.pc).2.beforeSoftReset b.draw b.pc b.taken).softReset.resetMask = 1 ∨
    ((s.predict b.pc).2.beforeSoftReset b.draw b.pc b.taken).softReset.resetMask = 2
  rw [(softReset_counts _).2, hbefore]
  show (if _ then s.resetMask ^^^ 3 else s.resetMask) = 1 ∨
    (if _ then s.resetMask ^^^ 3 else s.resetMask) = 2
  split
  · -- 1 ^ 3 = 2 and 2 ^ 3 = 1
    obtain hmask | hmask := hmask
    · right
      rw [hmask]
      rfl
    · left
      rw [hmask]
      rfl
  · exact hmask

/-- **Step.** -/
theorem execute_sound (h : Sound s) (b : Branch (ρ × Nat)) : Sound (execute s b).2 :=
  ⟨execute_inRange b h.inRange, execute_tags h b, execute_resetMask h b⟩

theorem afterTrace_sound (s : TAGE β nTables idxLen) (tr : List (Branch (ρ × Nat))) :
    Sound (afterTrace s.reset tr) :=
  Mealy.run_invariant (P := Sound) (fun _ b h => execute_sound h b) (reset_sound s) tr

theorem mainPred_valid_iff (ht : InRange t) :
    (t.predict pc).2.mainPred.valid = true ↔
      ∃ m, (t.predict pc).2.mainProvider = some m ∧ m < nTables ∧ t.Matches pc m := by
  rw [mainPred_valid, Option.isSome_iff_exists]
  refine exists_congr fun m => ⟨?_, And.left⟩
  intro hmain
  exact ⟨hmain, ((mainProvider_iff ht).1 hmain).1⟩

/-- Training the main provider leaves what the alternative one matched. -/
theorem altPred_valid_iff (ht : InRange t) : (t.predict pc).2.altPred.valid = true ↔
    ∃ a m, (t.predict pc).2.altProvider = some a ∧ (t.predict pc).2.mainProvider = some m ∧
      a < m ∧ m < nTables ∧ ∀ taken useful,
        ((t.predict pc).2.trainTable (some m) pc taken useful).Matches pc a := by
  rw [altPred_valid, Option.isSome_iff_exists]
  refine exists_congr fun a => ⟨?_, fun ⟨_, halt, _⟩ => halt⟩
  intro halt
  obtain ⟨m, hmain, ⟨ham, hmatch⟩, _⟩ := (altProvider_iff ht).1 halt
  refine ⟨m, halt, hmain, ham, ((mainProvider_iff ht).1 hmain).1.1, ?_⟩
  intro taken useful
  have hother : ((t.predict pc).2.trainTable (some m) pc taken useful).tables a = t.tables a := by
    apply trainTable_of_ne
    intro he
    exact absurd (Option.some.inj he) (by omega)
  have hhistory : ((t.predict pc).2.trainTable (some m) pc taken useful).history = t.history :=
    rfl
  simp only [Matches, entryAt, hother, hhistory]
  exact hmatch

end

/-- **The invariant of the tables.** After every run of pairs from reset, whatever is drawn:
each entry has its counter, its useful counter and its tag in range; in the prediction of
any branch a lookup gives a valid entry exactly when it matches; the main provider, and the
alternative one below it, are tables whose entries still carry the tag of the branch when
its update comes to train them; and the reset mask is 1 or 2. -/
theorem tables_sound (s : TAGE β nTables idxLen) (tr : List (Branch (ρ × Nat))) (pc : Word) :
    let t := afterTrace s.reset tr
    let u := (t.predict pc).2
    (∀ i idx, let e := (t.tables i).content idx
      (-2 ≤ e.counter ∧ e.counter ≤ 1) ∧ (0 ≤ e.useful ∧ e.useful ≤ 3) ∧
        e.tag.toNat < 2 ^ (2 <<< i)) ∧
    (∀ i, ((t.tables i).lookup pc t.history).valid = true ↔ t.Matches pc i) ∧
    (u.mainPred.valid = true ↔
      ∃ m, u.mainProvider = some m ∧ m < nTables ∧ u.Matches pc m) ∧
    (u.altPred.valid = true ↔
      ∃ a m, u.altProvider = some a ∧ u.mainProvider = some m ∧ a < m ∧ m < nTables ∧
        ∀ taken useful, (u.trainTable (some m) pc taken useful).Matches pc a) ∧
    (t.resetMask = 1 ∨ t.resetMask = 2) := by
  intro t u
  have h : Sound t := afterTrace_sound s tr
  refine ⟨?_, hit_iff_matches h.inRange pc, mainPred_valid_iff h.inRange,
    altPred_valid_iff h.inRange, h.resetMask⟩
  intro i idx
  exact ⟨(h.inRange i idx).counter, (h.inRange i idx).useful, h.tags i idx⟩

end TAGE
end SandboxPredictor
