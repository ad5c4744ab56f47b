import SandboxPredictor.NestLoop

/- The history and the table of `NestLoop`.

   `update` moves the history by `(history << 1) & taken`, where every other
   predictor has an `|`: the history is 0 in every state, so it records the
   outcomes of a run exactly as long as none of them is taken (`records_iff`).

   With a history of 0 the index of a branch is its address under the mask
   `(1 << (idx_len + 2)) - 4`, a multiple of 4 below `4 * num_entries`. So the
   sets of four slots are aligned and stay in the table, and a branch is looked
   for where it is added (`table_accesses`). -/
namespace SandboxPredictor
open ShiftRegister

namespace NestLoop

variable {counterLen idxLen : Nat} {s : NestLoop counterLen idxLen} {pc : Word}

/-- `num_entries`. -/
def numEntries (idxLen : Nat) : Nat := 2 ^ idxLen

/-- The slots of the set of a branch. -/
def slots (s : NestLoop counterLen idxLen) (pc : Word) : List Nat :=
  (List.range assoc).map ((s.getIdx pc).toNat + ·)

/-- The entries a call may read or write: `update` goes through a set before it moves the
history, in its first lookup, and through one after it, in `add` and the second lookup. -/
def accesses (s : NestLoop counterLen idxLen) : Call Unit → List Nat
  | .predict pc | .predictAddon pc _ _ => s.slots pc
  | .update pc taken _ => s.slots pc ++ (s.shiftHistory taken).slots pc
  | .reset => List.range (assoc * numEntries idxLen)

/-- The set an update installs an entry for its branch in, if it installs one. -/
def installs (s : NestLoop counterLen idxLen) (pc : Word) (taken : Bool) : Option (BitVec 32) :=
  let t := s.shiftHistory taken
  if (s.lookup pc).isNone && (t.add pc).1 then some (t.getIdx pc) else none

/-- In every state the calls reach the history holds the outcomes of their updates, and an
update that installs an entry does so in the set that its own lookup, and that of the
prediction before it, went through. -/
structure RecordsOutcomes (s : NestLoop counterLen idxLen) (calls : List (Call Unit)) :
    Prop where
  history : ∀ pre, pre <+: calls →
    Records (afterCalls s pre).history (pre.filterMap Call.outcome)
  lookups : ∀ pre pc taken, pre ++ [.update pc taken ()] <+: calls →
    ∀ idx, (afterCalls s pre).installs pc taken = some idx → idx = (afterCalls s pre).getIdx pc
  predictions : ∀ pre pc taken, pre ++ [.predict pc, .update pc taken ()] <+: calls →
    ∀ idx, (afterCalls s (pre ++ [.predict pc])).installs pc taken = some idx →
      idx = (afterCalls s pre).getIdx pc

/-! ## The index under a history of 0 -/

theorem getIdx_congr {t : NestLoop counterLen idxLen} (h : s.history = t.history) (pc : Word) :
    s.getIdx pc = t.getIdx pc := by
  simp only [getIdx, h]

theorem shiftHistory_getIdx (h : s.history = 0) (pc : Word) (taken : Bool) :
    (s.shiftHistory taken).getIdx pc = s.getIdx pc :=
  getIdx_congr ((shiftHistory_zero h taken).trans h.symm) pc

theorem afterCalls_history (calls : List (Call Unit)) :
    (afterCalls (new counterLen idxLen) calls).history = 0 :=
  Mealy.run_invariant (P := fun s : NestLoop counterLen idxLen => s.history = 0)
    (fun _ c h => call_history h c) rfl calls

theorem installs_eq (h : s.history = 0) {taken : Bool} {idx : BitVec 32}
    (hidx : s.installs pc taken = some idx) : idx = s.getIdx pc := by
  simp only [installs] at hidx
  split at hidx
  · rw [← Option.some.inj hidx, shiftHistory_getIdx h]
  · cases hidx

/-- **Where the history records the outcomes.** It does, together with what depends on it,
in exactly the runs from construction in which no outcome is taken. -/
theorem records_iff (calls : List (Call Unit)) :
    RecordsOutcomes (new counterLen idxLen) calls ↔ ∀ c ∈ calls, c.outcome ≠ some true := by
  refine ⟨?_, ?_⟩
  · intro h c hc htaken
    -- bit 0 after the update is not its outcome
    obtain ⟨pre, post, rfl⟩ := List.append_of_mem hc
    have hprefix : pre ++ [c] <+: pre ++ c :: post := ⟨post, by simp⟩
    have hbit := h.history (pre ++ [c]) hprefix 0 (by decide)
    rw [afterCalls_history, List.filterMap_append] at hbit
    simp [htaken] at hbit
  · intro hnone
    have hfalse : ∀ pre, pre <+: calls → ∀ b ∈ pre.filterMap Call.outcome, b = false := by
      intro pre hpre b hb
      obtain ⟨c, hc, hout⟩ := List.mem_filterMap.1 hb
      cases b with
      | false => rfl
      | true => exact absurd hout (hnone c (hpre.subset hc))
    refine ⟨?_, ?_, ?_⟩
    · intro pre hpre i _
      rw [afterCalls_history, List.getD_eq_getElem?_getD]
      show (0#64).getLsbD i = _
      rw [BitVec.getLsbD_zero]
      cases hout : (pre.filterMap Call.outcome).reverse[i]? with
      | none => rfl
      | some b =>
        have hmem := List.mem_reverse.1 (List.mem_of_getElem? hout)
        rw [hfalse pre hpre b hmem]
        rfl
    · intro pre pc taken _ idx hidx
      exact installs_eq (afterCalls_history pre) hidx
    · intro pre pc taken _ idx hidx
      rw [installs_eq (afterCalls_history _) hidx]
      exact getIdx_congr ((afterCalls_history _).trans (afterCalls_history pre).symm) pc

/-- One taken branch, on the predictor of the default sizes. -/
theorem taken_not_recorded :
    ¬ RecordsOutcomes (new 14 8) [.predict 0x400a10, .update 0x400a10 true ()] := by
  intro h
  have hbit := h.history _ List.prefix_rfl 0 (by decide)
  rw [afterCalls_history] at hbit
  exact Bool.noConfusion hbit

/-- The index of a branch is a multiple of 4 that leaves room for a set. -/
theorem getIdx_toNat (h : s.history = 0) (hlen : idxLen ≤ 28) (pc : Word) :
    (s.getIdx pc).toNat % assoc = 0 ∧
      (s.getIdx pc).toNat + assoc ≤ numEntries idxLen * assoc := by
  have hpos : 0 < 2 ^ idxLen := Nat.two_pow_pos idxLen
  have hlt : 2 ^ idxLen ≤ 2 ^ 28 := Nat.pow_le_pow_right (by decide) hlen
  have hpow : 2 ^ (idxLen + 2) = 4 * 2 ^ idxLen := by rw [Nat.pow_add, Nat.mul_comm]
  have hmask : ((1#64 <<< (idxLen + 2)) - 4#64).toNat = 4 * (2 ^ idxLen - 1) := by
    rw [BitVec.toNat_sub, BitVec.toNat_shiftLeft, BitVec.toNat_ofNat, BitVec.toNat_ofNat,
      Nat.shiftLeft_eq, hpow]
    omega
  have hidx : (s.getIdx pc).toNat = pc.toNat &&& (4 * (2 ^ idxLen - 1)) := by
    have hle : pc.toNat &&& (4 * (2 ^ idxLen - 1)) ≤ 4 * (2 ^ idxLen - 1) := Nat.and_le_right
    have h0 : s.history = 0#64 := h
    simp only [getIdx, h0, BitVec.zero_and, BitVec.xor_zero, BitVec.toNat_setWidth,
      BitVec.toNat_and, hmask]
    exact Nat.mod_eq_of_lt (by omega)
  rw [hidx]
  refine ⟨?_, ?_⟩
  · have hmod : (pc.toNat &&& (4 * (2 ^ idxLen - 1))) % 2 ^ 2 =
        (pc.toNat % 2 ^ 2) &&& ((4 * (2 ^ idxLen - 1)) % 2 ^ 2) := Nat.and_mod_two_pow
    rw [show (4 * (2 ^ idxLen - 1)) % 2 ^ 2 = 0 by omega, Nat.and_zero] at hmod
    exact hmod
  · have hle : pc.toNat &&& (4 * (2 ^ idxLen - 1)) ≤ 4 * (2 ^ idxLen - 1) := Nat.and_le_right
    simp only [numEntries, assoc]
    omega

theorem mem_slots {j : Nat} :
    j ∈ s.slots pc ↔ (s.getIdx pc).toNat ≤ j ∧ j < (s.getIdx pc).toNat + assoc := by
  simp only [slots, List.mem_map, List.mem_range]
  refine ⟨?_, ?_⟩
  · rintro ⟨i, hi, rfl⟩
    omega
  · intro ⟨hle, hlt⟩
    exact ⟨j - (s.getIdx pc).toNat, by omega, by omega⟩

/-- The sets are the aligned groups of four slots. -/
theorem mem_slots_iff_div (h : s.history = 0) (hlen : idxLen ≤ 28) {j : Nat} :
    j ∈ s.slots pc ↔ j / assoc = (s.getIdx pc).toNat / assoc := by
  have hmod := (getIdx_toNat h hlen pc).1
  rw [mem_slots]
  simp only [assoc] at hmod ⊢
  omega

theorem slots_eq_or_disjoint (h : s.history = 0) (hlen : idxLen ≤ 28) (pc pc' : Word) :
    s.slots pc = s.slots pc' ∨ List.Disjoint (s.slots pc) (s.slots pc') := by
  by_cases heq : s.getIdx pc = s.getIdx pc'
  · left
    simp only [slots, heq]
  · right
    intro j hj hj'
    rw [mem_slots_iff_div h hlen] at hj hj'
    have hmod := (getIdx_toNat h hlen pc).1
    have hmod' := (getIdx_toNat h hlen pc').1
    apply heq
    apply BitVec.eq_of_toNat_eq
    simp only [assoc] at hj hj' hmod hmod'
    omega

theorem accesses_lt (h : s.history = 0) (hlen : idxLen ≤ 28) (c : Call Unit) :
    ∀ j ∈ s.accesses c, j < numEntries idxLen * assoc := by
  have hslots : ∀ {t : NestLoop counterLen idxLen}, t.history = 0 → ∀ pc, ∀ j ∈ t.slots pc,
      j < numEntries idxLen * assoc := by
    intro t ht pc j hj
    have hroom := (getIdx_toNat ht hlen pc).2
    have hlt := (mem_slots.1 hj).2
    omega
  intro j hj
  cases c with
  | predict pc | predictAddon pc => exact hslots h pc j hj
  | update pc taken =>
    rcases List.mem_append.1 hj with hj | hj
    · exact hslots h pc j hj
    · exact hslots (shiftHistory_zero h taken) pc j hj
  | reset =>
    rw [Nat.mul_comm]
    exact List.mem_range.1 hj

/-! ## Tags are unique in a set -/

/-- No two entries of a set have the same tag, unless it is 0. -/
def UniqueTags (s : NestLoop counterLen idxLen) : Prop :=
  ∀ j k, j ≠ k → j / assoc = k / assoc → (s.content j).tag ≠ 0 →
    (s.content j).tag ≠ (s.content k).tag

/-- A lookup that fails has compared every entry of the set. -/
theorem tag_ne_of_lookup_none (h : s.lookup pc = none) {j : Nat} (hj : j ∈ s.slots pc) :
    (s.content j).tag ≠ (s.getTag pc).setWidth 64 := by
  obtain ⟨i, hi, rfl⟩ := List.mem_map.1 hj
  have hfind := List.find?_eq_none.1 (Option.map_eq_none_iff.1 h) i hi
  simpa using hfind

/-- What `add` does: it takes the first entry of age 0 of the set, or ages the set. -/
theorem add_cases (s : NestLoop counterLen idxLen) (pc : Word) :
    (∃ j ∈ s.slots pc, (s.content j).age = 0 ∧
      s.add pc = (true, s.setEntry j ⟨255, (s.getTag pc).setWidth 64, 0, 0, 0, true, false⟩)) ∨
    s.add pc = (false, s.decay (s.getIdx pc).toNat) := by
  simp only [add]
  split
  next i hfind =>
    left
    refine ⟨_, List.mem_map.2 ⟨i, List.mem_of_find?_eq_some hfind, rfl⟩, ?_, rfl⟩
    simpa using List.find?_some hfind
  next => right; rfl

theorem UniqueTags.congr {t : NestLoop counterLen idxLen} (h : UniqueTags s)
    (htags : ∀ j, (t.content j).tag = (s.content j).tag) : UniqueTags t := by
  intro j k hne hset
  rw [htags, htags]
  exact h j k hne hset

theorem setEntry_tags {i : Nat} {e : NestloopEntry} (he : e.tag = (s.content i).tag) (j : Nat) :
    ((s.setEntry i e).content j).tag = (s.content j).tag := by
  by_cases hj : j = i
  · subst hj
    simpa [setEntry] using he
  · simp [setEntry, Function.update_of_ne hj]

theorem decay_tags (idx j : Nat) : ((s.decay idx).content j).tag = (s.content j).tag := by
  simp only [decay]
  split <;> rfl

theorem predict_tags (pc : Word) (j : Nat) :
    ((s.predict pc).2.content j).tag = (s.content j).tag := by
  simp only [predict]
  split
  · rfl
  · apply setEntry_tags
    simp only [predictEntry]
    split
    · split <;> rfl
    · rfl

theorem updateEntry_tag (maxCount : Nat) (taken : Bool) (e : NestloopEntry) :
    (updateEntry maxCount taken e).tag = e.tag := by
  simp only [updateEntry, apply_ite NestloopEntry.tag, ite_self]

/-- A new entry gets a tag that the set does not hold. -/
theorem add_uniqueTags (h : UniqueTags s) (hzero : s.history = 0) (hlen : idxLen ≤ 28)
    (hnone : s.lookup pc = none) : UniqueTags (s.add pc).2 := by
  rcases add_cases s pc with ⟨i, hi, _, hadd⟩ | hadd
  · rw [hadd]
    have hnew : ∀ k, k / assoc = i / assoc →
        (s.content k).tag ≠ (s.getTag pc).setWidth 64 := by
      intro k hk
      apply tag_ne_of_lookup_none hnone
      rw [mem_slots_iff_div hzero hlen] at hi ⊢
      omega
    intro j k hne hset hpos
    by_cases hj : j = i
    · subst hj
      simp only [setEntry, Function.update_self, Function.update_of_ne (Ne.symm hne)]
      exact (hnew k hset.symm).symm
    · by_cases hk : k = i
      · subst hk
        simp only [setEntry, Function.update_self, Function.update_of_ne hne]
        exact hnew j hset
      · simp only [setEntry, Function.update_of_ne hj, Function.update_of_ne hk] at hpos ⊢
        exact h j k hne hset hpos
  · rw [hadd]
    exact h.congr (decay_tags _)

theorem update_uniqueTags (h : UniqueTags s) (hzero : s.history = 0) (hlen : idxLen ≤ 28)
    (pc : Word) (taken : Bool) : UniqueTags (s.update pc taken) := by
  have hshift : UniqueTags (s.shiftHistory taken) := h
  have hfound : UniqueTags (s.findOrAdd pc taken).2 := by
    unfold findOrAdd
    split
    · exact hshift
    next hnone =>
      -- the lookup that failed went through the set the entry is added to
      have hmoved : (s.shiftHistory taken).lookup pc = none := by
        have hidx := shiftHistory_getIdx hzero pc taken
        simp only [lookup, hidx] at hnone ⊢
        exact hnone
      have hadd := add_uniqueTags hshift (shiftHistory_zero hzero taken) hlen hmoved
      dsimp only
      split <;> exact hadd
  simp only [update]
  split
  next heq =>
    rw [heq] at hfound
    exact hfound
  next heq =>
    rw [heq] at hfound
    exact hfound.congr (setEntry_tags (updateEntry_tag _ _ _))

theorem call_uniqueTags (h : UniqueTags s) (hzero : s.history = 0) (hlen : idxLen ≤ 28)
    (c : Call Unit) : UniqueTags (call s c).2 := by
  cases c with
  | predict pc | predictAddon pc => exact h.congr (predict_tags pc)
  | update pc taken => exact update_uniqueTags h hzero hlen pc taken
  | reset => exact fun _ _ _ _ hpos => absurd rfl hpos

/-- An entry that is not of age 0 survives an `add`, at most a step older. -/
theorem add_content (s : NestLoop counterLen idxLen) (pc : Word) {j : Nat}
    (hage : (s.content j).age ≠ 0) :
    (s.add pc).2.content j = s.content j ∨
      (s.add pc).2.content j = { s.content j with age := (s.content j).age - 1 } := by
  rcases add_cases s pc with ⟨i, _, hdead, hadd⟩ | hadd
  · left
    have hne : j ≠ i := by
      rintro rfl
      exact hage hdead
    rw [hadd]
    exact Function.update_of_ne hne _ _
  · rw [hadd]
    by_cases hset : (s.getIdx pc).toNat ≤ j ∧ j < (s.getIdx pc).toNat + assoc
    · right
      have hpos : (s.content j).age > 0 := (BitVec.pos_iff_ne_zero _).2 hage
      simp only [decay, if_pos hset, if_pos hpos]
    · left
      simp only [decay, if_neg hset]

/-- **The table.** In every state that calls from construction reach: every access is in
the table; two branches have the same slots or none in common; the entries of a set have
different tags, unless they are 0; and `add` overwrites no entry whose age is positive. -/
theorem table_accesses (hlen : idxLen ≤ 28) (calls : List (Call Unit)) :
    let s := afterCalls (new counterLen idxLen) calls
    (∀ c, ∀ j ∈ s.accesses c, j < numEntries idxLen * assoc) ∧
    (∀ pc pc', s.slots pc = s.slots pc' ∨ List.Disjoint (s.slots pc) (s.slots pc')) ∧
    (∀ pc, ∀ j ∈ s.slots pc, ∀ k ∈ s.slots pc, j ≠ k → (s.content j).tag ≠ 0 →
      (s.content j).tag ≠ (s.content k).tag) ∧
    (∀ pc taken j, (s.content j).age ≠ 0 →
      let t := ((s.shiftHistory taken).add pc).2
      t.content j = s.content j ∨
        t.content j = { s.content j with age := (s.content j).age - 1 }) := by
  intro s
  have hinv : s.history = 0 ∧ UniqueTags s :=
    Mealy.run_invariant
      (P := fun s : NestLoop counterLen idxLen => s.history = 0 ∧ UniqueTags s)
      (fun _ c h => ⟨call_history h.1 c, call_uniqueTags h.2 h.1 hlen c⟩)
      ⟨rfl, fun _ _ _ _ hpos => absurd rfl hpos⟩ calls
  obtain ⟨hzero, hunique⟩ := hinv
  refine ⟨accesses_lt hzero hlen, slots_eq_or_disjoint hzero hlen, ?_, ?_⟩
  · intro pc j hj k hk hne hpos
    rw [mem_slots_iff_div hzero hlen] at hj hk
    exact hunique j k hne (hj.trans hk.symm) hpos
  · intro pc taken j hage
    exact add_content (s.shiftHistory taken) pc hage

/-- The slots of a branch in the default table of 256 sets, after two updates. -/
theorem table_accesses_default :
    ((afterCalls (new 14 8) [.update 0x400a10 true (), .update 0x410a10 false ()]).slots
      0x7ffff0).all (· < 256 * 4) = true := by
  rw [List.all_eq_true]
  intro j hj
  exact decide_eq_true ((table_accesses (by decide) _).1 (.predict 0x7ffff0) j hj)

end NestLoop

end SandboxPredictor
