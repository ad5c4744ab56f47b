import Mathlib.Data.Fintype.Prod
import Mathlib.Data.List.FinRange

/- Items that wait for other items. `edge p c k` says that `c` was told to wait for
   `p`, for its `k`-th operand; it waits as long as `p` is not done. A scoreboard
   keeps for every item only how many it waits for: this is the cardinality of
   `pending`, and the lemmas say how it moves when edges are added and when an item
   is done. -/
namespace WaitGraph

variable {ι κ : Type} [Fintype ι] [Fintype κ]
  {edge edge' : ι → ι → κ → Prop} {done done' : ι → Prop} {c p : ι}

open Classical in
/-- What `c` waits for. -/
noncomputable def pending (edge : ι → ι → κ → Prop) (done : ι → Prop) (c : ι) : Finset (ι × κ) :=
  Finset.univ.filter fun q => ¬ done q.1 ∧ edge q.1 c q.2

@[simp] theorem mem_pending {q : ι × κ} :
    q ∈ pending edge done c ↔ ¬ done q.1 ∧ edge q.1 c q.2 := by
  simp [pending]

theorem pending_congr (h : ∀ q k, (¬ done' q ∧ edge' q c k) ↔ (¬ done q ∧ edge q c k)) :
    pending edge' done' c = pending edge done c := by
  ext q
  rw [mem_pending, mem_pending]
  exact h q.1 q.2

theorem card_pending_eq_zero : (pending edge done c).card = 0 ↔ ∀ p k, edge p c k → done p := by
  rw [Finset.card_eq_zero, Finset.eq_empty_iff_forall_notMem]
  constructor
  · intro h p k he
    by_contra hp
    exact h (p, k) (mem_pending.2 ⟨hp, he⟩)
  · intro h q hq
    obtain ⟨hp, he⟩ := mem_pending.1 hq
    exact hp (h _ _ he)

/-- An item that is to wait for at most one other for each operand, none of them done. -/
theorem card_pending_link {w : κ → Option ι}
    (hedge : ∀ p k, edge' p c k ↔ w k = some p) (hw : ∀ p k, w k = some p → ¬ done p) :
    (pending edge' done c).card = (Finset.univ.filter fun k => (w k).isSome).card := by
  symm
  refine Finset.card_bij (fun k hk => ((w k).get (Finset.mem_filter.1 hk).2, k)) ?_ ?_ ?_
  · intro k hk
    have hsome : w k = some ((w k).get (Finset.mem_filter.1 hk).2) := (Option.some_get _).symm
    exact mem_pending.2 ⟨hw _ k hsome, (hedge _ k).2 hsome⟩
  · intro k hk k' hk' heq
    exact congrArg Prod.snd heq
  · rintro ⟨p, k⟩ hq
    have hsome : w k = some p := (hedge p k).1 (mem_pending.1 hq).2
    have hmem : k ∈ Finset.univ.filter fun k => (w k).isSome := by simp [hsome]
    exact ⟨k, hmem, by simp [hsome]⟩

variable (edge c) in
open Classical in
/-- When `p` is done, every item waits for as many less as it was to wait for `p`. -/
theorem card_pending_finish (hp : ¬ done p) (hdone : ∀ q, done' q ↔ done q ∨ q = p) :
    (pending edge done c).card
      = (pending edge done' c).card + (Finset.univ.filter (edge p c)).card := by
  have hinj : Function.Injective (fun k : κ => (p, k)) := fun k k' h => congrArg Prod.snd h
  have hsplit : pending edge done c
      = pending edge done' c ∪ (Finset.univ.filter (edge p c)).image fun k => (p, k) := by
    ext q
    simp only [mem_pending, Finset.mem_union, Finset.mem_image, Finset.mem_filter,
      Finset.mem_univ, true_and, hdone]
    constructor
    · rintro ⟨hq, he⟩
      by_cases hqp : q.1 = p
      · exact Or.inr ⟨q.2, hqp ▸ he, Prod.ext hqp.symm rfl⟩
      · exact Or.inl ⟨fun hd => hd.elim hq hqp, he⟩
    · rintro (⟨hq, he⟩ | ⟨k, he, rfl⟩)
      · exact ⟨fun hd => hq (Or.inl hd), he⟩
      · exact ⟨hp, he⟩
  have hdisj : Disjoint (pending edge done' c)
      ((Finset.univ.filter (edge p c)).image fun k => (p, k)) := by
    rw [Finset.disjoint_left]
    intro q hq hmem
    obtain ⟨k, -, rfl⟩ := Finset.mem_image.1 hmem
    exact (mem_pending.1 hq).1 ((hdone _).2 (Or.inr rfl))
  rw [hsplit, Finset.card_union_of_disjoint hdisj, Finset.card_image_of_injective _ hinj]

/-- The operands counted one by one. -/
theorem card_filter_finRange {n : Nat} (q : Fin n → Prop) [DecidablePred q] :
    (Finset.univ.filter q).card = (List.finRange n).countP (fun k => decide (q k)) := by
  rw [List.countP_eq_length_filter,
    ← List.toFinset_card_of_nodup ((List.nodup_finRange n).filter _)]
  congr 1
  ext k
  simp

end WaitGraph
