import SandboxPredictor.TageProviders

/- The shifts of TAGE and its tables, for any number of tables.

   A shift of the source has a value when its amount is below the width of its
   left operand: 32 for an `int`, as the literal 1 is, and 64 for a `uint64_t` or a
   `long`. The masks of the tags are `(1 << tagLen) - 1` on an `int`, and table `i`
   has the tag length `2 << i`, so table 4 shifts by the whole width. The mask of
   the history is cast to `uint64_t` first, and its length reaches 64 with the
   sixth table. Every shift has a value exactly when there are at most four
   tables (`works_iff`). -/
namespace SandboxPredictor
open ShiftRegister

/-- A shift of the source: the width of its left operand, and its amount. -/
structure Shift where
  width : Nat
  amount : Nat
  deriving DecidableEq, Repr

/-- The shift has a value. -/
def Shift.Defined (x : Shift) : Prop := x.amount < x.width

instance (x : Shift) : Decidable x.Defined := inferInstanceAs (Decidable (_ < _))

/-- The shifts of `fold(x, length)`: the mask, and the one the loop repeats while `x` is
not 0. -/
def foldShifts (x : Word) (length : Nat) : List Shift :=
  ⟨32, length⟩ :: if x = 0 then [] else [⟨64, length⟩]

namespace TagTable

variable {idxLen tagLen : Nat}

/-- `nEntries = 1 << idxLen`. -/
def constructorShifts (idxLen : Nat) : List Shift := [⟨32, idxLen⟩]

/-- `pc >> idxLen`, the fold, and the mask. -/
def getIdxShifts (_ : TagTable idxLen tagLen) (history : Word) : List Shift :=
  ⟨64, idxLen⟩ :: foldShifts history idxLen ++ [⟨32, idxLen⟩]

/-- The two folds, and the mask. -/
def getTagShifts (_ : TagTable idxLen tagLen) (history : Word) : List Shift :=
  foldShifts history tagLen ++ foldShifts history (tagLen - 1) ++ [⟨32, tagLen⟩]

/-- The shifts of `lookup`, `add` and `update`; `decay` has those of the index. -/
def lookupShifts (t : TagTable idxLen tagLen) (history : Word) : List Shift :=
  t.getIdxShifts history ++ t.getTagShifts history

/-- `rawTag`: what the tag is taken from. -/
def rawTag (_ : TagTable idxLen tagLen) (pc history : Word) : Word :=
  pc ^^^ fold history tagLen ^^^ (2#64 * fold history (tagLen - 1))

end TagTable

namespace TAGE

variable {β ρ : Type} [Predictor β ρ] {nTables idxLen : Nat}

/-- `GHRLen = 1 << nTables`, for each table its tag length `2 << i` and its constructor, and
`resetPeriod = 1 << 18`. -/
def constructorShifts (nTables idxLen : Nat) : List Shift :=
  ⟨32, nTables⟩ ::
    (List.range nTables).flatMap (fun i => ⟨32, i⟩ :: TagTable.constructorShifts idxLen) ++
      [⟨32, 18⟩]

/-- The shifts of a lookup in each of the tables. `predict` goes down from the last one, and
`update` to tables it has looked in or that lie above the main provider. -/
def tableShifts (s : TAGE β nTables idxLen) : List Shift :=
  (List.range nTables).flatMap fun i => (s.tables i).lookupShifts s.history

/-- The calls to the tables, `randNum >> 1`, `history << 1`, and the mask of the history. -/
def updateShifts (s : TAGE β nTables idxLen) : List Shift :=
  s.tableShifts ++ [⟨64, 1⟩, ⟨64, 1⟩, ⟨64, ghrLen nTables⟩]

/-- TAGE works: every shift of the constructors, of the pairs of the run from reset, and of
the prediction of `pc` after it has a value; the tag of table `i` is `2 << i` bits of its
hash; and the history holds the last `1 << nTables` outcomes. -/
structure Works (s : TAGE β nTables idxLen) (tr : List (Branch (ρ × Nat))) (pc : Word) :
    Prop where
  constructors : ∀ x ∈ constructorShifts nTables idxLen, x.Defined
  pairs : ∀ pre b, pre ++ [b] <+: tr →
    ∀ x ∈ (afterTrace s.reset pre).tableShifts ++
      ((afterTrace s.reset pre).predict b.pc).2.updateShifts, x.Defined
  prediction : ∀ x ∈ (afterTrace s.reset tr).tableShifts, x.Defined
  tags : let t := afterTrace s.reset tr
    ∀ i j, i < nTables → j < 64 → ((t.tables i).getTag pc t.history).getLsbD j =
      (decide (j < 2 <<< i) && ((t.tables i).rawTag pc t.history).getLsbD j)
  history : ∀ j, j < 64 → (afterTrace s.reset tr).history.getLsbD j =
    (decide (j < ghrLen nTables) && (tr.map Branch.taken).reverse.getD j false)

/-! ## Up to four tables -/

section
variable {s : TAGE β nTables idxLen}

theorem foldShifts_defined (x : Word) {length : Nat} (hlen : length < 32) :
    ∀ y ∈ foldShifts x length, y.Defined := by
  intro y hy
  rcases List.mem_cons.1 hy with rfl | hy
  · exact hlen
  · split at hy
    · cases hy
    · rw [List.mem_singleton.1 hy]
      exact Nat.lt_trans hlen (show 32 < 64 by decide)

theorem lookupShifts_defined {tagLen : Nat} (t : TagTable idxLen tagLen) (history : Word)
    (hidx : idxLen < 32) (htag : tagLen < 32) : ∀ y ∈ t.lookupShifts history, y.Defined := by
  intro y hy
  rcases List.mem_append.1 hy with hy | hy
  · rcases List.mem_append.1 hy with hy | hy
    · rcases List.mem_cons.1 hy with rfl | hy
      · exact Nat.lt_trans hidx (show 32 < 64 by decide)
      · exact foldShifts_defined history hidx y hy
    · rw [List.mem_singleton.1 hy]
      exact hidx
  · rcases List.mem_append.1 hy with hy | hy
    · rcases List.mem_append.1 hy with hy | hy
      · exact foldShifts_defined history htag y hy
      · exact foldShifts_defined history (by omega) y hy
    · rw [List.mem_singleton.1 hy]
      exact htag

theorem shiftLeft_le_of_le {a n m : Nat} (h : n ≤ m) : a <<< n ≤ a <<< m := by
  rw [Nat.shiftLeft_eq, Nat.shiftLeft_eq]
  exact Nat.mul_le_mul_left a (Nat.pow_le_pow_right (by decide) h)

theorem tableShifts_defined (s : TAGE β nTables idxLen) (hidx : idxLen < 32)
    (hn : nTables ≤ 4) : ∀ y ∈ s.tableShifts, y.Defined := by
  intro y hy
  obtain ⟨i, hi, hy⟩ := List.mem_flatMap.1 hy
  have hlt := List.mem_range.1 hi
  have htag : 2 <<< i ≤ 2 <<< 3 := shiftLeft_le_of_le (by omega)
  exact lookupShifts_defined (s.tables i) s.history hidx (Nat.lt_of_le_of_lt htag (by decide)) y hy

theorem updateShifts_defined (s : TAGE β nTables idxLen) (hidx : idxLen < 32)
    (hn : nTables ≤ 4) : ∀ y ∈ s.updateShifts, y.Defined := by
  have hghr : ghrLen nTables ≤ 1 <<< 4 := shiftLeft_le_of_le hn
  have hmask : Shift.Defined ⟨64, ghrLen nTables⟩ :=
    Nat.lt_of_le_of_lt hghr (show 1 <<< 4 < 64 by decide)
  intro y hy
  rcases List.mem_append.1 hy with hy | hy
  · exact tableShifts_defined s hidx hn y hy
  · simp only [List.mem_cons, List.not_mem_nil, or_false] at hy
    obtain rfl | rfl | rfl := hy
    · decide
    · decide
    · exact hmask

theorem constructorShifts_defined (hidx : idxLen < 32) (hn : nTables ≤ 4) :
    ∀ y ∈ constructorShifts nTables idxLen, y.Defined := by
  intro y hy
  rcases List.mem_append.1 hy with hy | hy
  · rcases List.mem_cons.1 hy with rfl | hy
    · exact Nat.lt_of_le_of_lt hn (show 4 < 32 by decide)
    · obtain ⟨i, hi, hy⟩ := List.mem_flatMap.1 hy
      have hlt := List.mem_range.1 hi
      rcases List.mem_cons.1 hy with rfl | hy
      · exact Nat.lt_trans hlt (Nat.lt_of_le_of_lt hn (show 4 < 32 by decide))
      · rw [List.mem_singleton.1 hy]
        exact hidx
  · rw [List.mem_singleton.1 hy]
    decide

theorem getTag_getLsbD {tagLen : Nat} (t : TagTable idxLen tagLen) (pc history : Word) {j : Nat}
    (hj : j < 64) : (t.getTag pc history).getLsbD j =
      (decide (j < tagLen) && (t.rawTag pc history).getLsbD j) := by
  show ((t.rawTag pc history) &&& lowMask tagLen).getLsbD j = _
  rw [BitVec.getLsbD_and, lowMask_getLsbD tagLen hj, Bool.and_comm]

theorem afterTrace_history (s : TAGE β nTables idxLen) (tr : List (Branch (ρ × Nat))) :
    ∀ j, j < 64 → (afterTrace s.reset tr).history.getLsbD j =
      (decide (j < ghrLen nTables) && (tr.map Branch.taken).reverse.getD j false) := by
  induction tr using List.reverseRecOn with
  | nil =>
    intro j _
    show (0#64).getLsbD j = _
    simp
  | append_singleton tr b ih =>
    intro j hj
    rw [afterTrace, Mealy.run_snoc, execute_history, BitVec.getLsbD_and,
      lowMask_getLsbD _ hj, shiftIn_getLsbD _ _ hj, List.map_append, List.reverse_append,
      Bool.and_comm]
    cases j with
    | zero => simp
    | succ j =>
      have hbit := ih j (by omega)
      rw [if_neg (Nat.succ_ne_zero j), Nat.add_sub_cancel, hbit]
      by_cases hlt : j + 1 < ghrLen nTables
      · have hlt' : j < ghrLen nTables := by omega
        simp [hlt, hlt']
      · simp [hlt]

end

/-! ## From five tables on -/

/-- The mask of the tag of the last table, which every prediction looks in first, shifts an
`int` by its width or more. -/
theorem not_works (s : TAGE β nTables idxLen) (tr : List (Branch (ρ × Nat))) (pc : Word)
    (hn : 5 ≤ nTables) : ¬ Works s tr pc := by
  intro h
  have hmem : (⟨32, 2 <<< (nTables - 1)⟩ : Shift) ∈ (afterTrace s.reset tr).tableShifts := by
    apply List.mem_flatMap.2
    refine ⟨nTables - 1, List.mem_range.2 (by omega), ?_⟩
    simp [TagTable.lookupShifts, TagTable.getTagShifts]
  have hdefined : 2 <<< (nTables - 1) < 32 := h.prediction _ hmem
  have hwide : 2 <<< 4 ≤ 2 <<< (nTables - 1) := shiftLeft_le_of_le (by omega)
  exact absurd (Nat.lt_of_le_of_lt hwide hdefined) (by decide)

/-- **TAGE works with at most four tables.** For every base, every run from reset and every
branch predicted after it. -/
theorem works_iff (hidx : idxLen ≤ 30) (s : TAGE β nTables idxLen)
    (tr : List (Branch (ρ × Nat))) (pc : Word) : Works s tr pc ↔ nTables ≤ 4 := by
  refine ⟨?_, ?_⟩
  · intro h
    by_contra hn
    exact not_works s tr pc (by omega) h
  · intro hn
    have hlt : idxLen < 32 := by omega
    refine ⟨constructorShifts_defined hlt hn, ?_, tableShifts_defined _ hlt hn, ?_,
      afterTrace_history s tr⟩
    · intro pre b _ y hy
      rcases List.mem_append.1 hy with hy | hy
      · exact tableShifts_defined _ hlt hn y hy
      · exact updateShifts_defined _ hlt hn y hy
    · intro t i j _ hj
      exact getTag_getLsbD (t.tables i) pc t.history hj

/-- The sizes of `tage.bpred`, over a static base. -/
theorem works_iff_four : Works (new StaticTaken.mk 4 9) [⟨0x400a10, true, ((), 0)⟩] 0x400b20 :=
  (works_iff (by decide) _ _ _).2 (by decide)

/-- One table more. -/
theorem fifth_table_undefined : ¬ Works (new StaticTaken.mk 5 10) [] 0x400a10 :=
  not_works _ _ _ (by decide)

end TAGE
end SandboxPredictor
