import SandboxPredictor.Lib.Ring
import SandboxPredictor.Perceptron

/- Predictions of a `Perceptron` in flight.

   Calls of `predict` (either overload) and `update` come in any order that keeps
   to the queue (`InOrder`): an update while a prediction is outstanding, and at
   most `QUEUE_SIZE` predictions outstanding. This module proves

   1. `trained_on_own_state`: the k-th update takes from the queue what the k-th
      prediction saved there, and trains on it;
   2. `histories_at_rest`: when nothing is outstanding, the real history holds all
      outcomes, and the speculative history holds them without those of the
      branches that were in flight when the last misprediction was resolved. The
      repair puts the real history in its place, and the bits these branches had
      shifted in are lost (`younger_guess_lost`). -/
namespace SandboxPredictor
open ShiftRegister

namespace Perceptron

variable {ghrLen tableSize weightLen : Nat}

/-- `QUEUE_SIZE`. -/
def queueSize : Nat := 4

/-- How many predictions the calls make. -/
def made (calls : List (Call Unit)) : Nat := calls.countP Call.isPredict

/-- The outcomes of the branches the calls resolve, oldest first. -/
def outcomes (calls : List (Call Unit)) : List Bool := calls.filterMap Call.outcome

/-- How many branches the calls resolve. -/
def resolved (calls : List (Call Unit)) : Nat := (outcomes calls).length

/-- The calls keep to the queue: after each of them the branches resolved have been
predicted, and at most `QUEUE_SIZE` predictions are outstanding. -/
def InOrder (calls : List (Call Unit)) : Prop :=
  (∀ c ∈ calls, c.isReset = false) ∧
    ∀ pre ∈ calls.inits, resolved pre ≤ made pre ∧ made pre ≤ resolved pre + queueSize

instance (calls : List (Call Unit)) : Decidable (InOrder calls) :=
  inferInstanceAs (Decidable (_ ∧ _))

/-- What a call of `predict` saves. -/
def savedBy (p : Perceptron ghrLen tableSize weightLen) : Call Unit → Option Pstate
  | .predict pc => some ⟨p.specHistory, p.weightedSum (p.getIdx pc) p.specHistory⟩
  | .predictAddon pc addon addonLen =>
    let tmpHistory := p.addonHistory addon addonLen
    some ⟨tmpHistory, p.weightedSum (p.getIdx pc) tmpHistory⟩
  | _ => none

/-- What a call of `update` takes from the queue. -/
def usedBy (p : Perceptron ghrLen tableSize weightLen) : Call Unit → Option Pstate
  | .update _ _ _ => some p.pendingBP.dequeue.1
  | _ => none

/-- What the predictions of the calls save, in their order. -/
abbrev saved (p : Perceptron ghrLen tableSize weightLen) (calls : List (Call Unit)) :
    List Pstate :=
  Mealy.collect call savedBy p calls

/-- What the updates of the calls use, in their order. -/
abbrev used (p : Perceptron ghrLen tableSize weightLen) (calls : List (Call Unit)) :
    List Pstate :=
  Mealy.collect call usedBy p calls

/-- The call is an update that finds its branch mispredicted. -/
def mispredicts (p : Perceptron ghrLen tableSize weightLen) : Call Unit → Bool
  | .update _ taken _ => p.pendingBP.dequeue.1.guess != taken
  | _ => false

/-- The calls up to and with the last update that finds its branch mispredicted. -/
def untilRepair : Perceptron ghrLen tableSize weightLen → List (Call Unit) → List (Call Unit)
  | _, [] => []
  | p, c :: calls =>
    let rest := untilRepair (call p c).2 calls
    if rest.isEmpty && !p.mispredicts c then [] else c :: rest

/-- The history `outs` without the part that was in flight at the last repair: predicted
before it, but not resolved with it. -/
def kept (p : Perceptron ghrLen tableSize weightLen) (calls : List (Call Unit))
    (outs : List Bool) : List Bool :=
  outs.take (resolved (p.untilRepair calls)) ++ outs.drop (made (p.untilRepair calls))

/-! ## What the calls count -/

section
variable (calls : List (Call Unit)) (c : Call Unit)

theorem made_snoc : made (calls ++ [c]) = made calls + if c.isPredict then 1 else 0 := by
  simp [made, List.countP_append]

theorem outcomes_snoc : outcomes (calls ++ [c]) = outcomes calls ++ c.outcome.toList := by
  unfold outcomes
  rw [List.filterMap_append]
  cases h : c.outcome <;> simp [h]

theorem inOrder_snoc : InOrder (calls ++ [c]) ↔ InOrder calls ∧ c.isReset = false ∧
    resolved (calls ++ [c]) ≤ made (calls ++ [c]) ∧
      made (calls ++ [c]) ≤ resolved (calls ++ [c]) + queueSize := by
  have hinits : ∀ pre, pre ∈ (calls ++ [c]).inits ↔ pre ∈ calls.inits ∨ pre = calls ++ [c] := by
    intro pre
    rw [List.mem_inits, List.mem_inits, List.prefix_concat_iff]
    exact or_comm
  unfold InOrder
  simp only [hinits, List.mem_append, List.mem_singleton]
  refine ⟨?_, ?_⟩
  · intro ⟨hreset, hcounts⟩
    exact ⟨⟨fun c hc => hreset c (Or.inl hc), fun pre hpre => hcounts pre (Or.inl hpre)⟩,
      hreset c (Or.inr rfl), hcounts _ (Or.inr rfl)⟩
  · intro ⟨⟨hreset, hcounts⟩, hc, hlast⟩
    refine ⟨?_, ?_⟩
    · rintro c' (hc' | rfl)
      · exact hreset c' hc'
      · exact hc
    · rintro pre (hpre | rfl)
      · exact hcounts pre hpre
      · exact hlast

end

section
variable (p : Perceptron ghrLen tableSize weightLen) (calls : List (Call Unit)) (c : Call Unit)

theorem length_saved : (p.saved calls).length = made calls := by
  induction calls using List.reverseRecOn with
  | nil => rfl
  | append_singleton calls c ih =>
    rw [saved, Mealy.collect_snoc, List.length_append, made_snoc, ← ih]
    cases c <;> rfl

theorem length_used : (p.used calls).length = resolved calls := by
  induction calls using List.reverseRecOn with
  | nil => rfl
  | append_singleton calls c ih =>
    rw [used, Mealy.collect_snoc, List.length_append, resolved, outcomes_snoc, List.length_append,
      ← resolved, ← ih]
    cases c <;> rfl

theorem untilRepair_snoc : p.untilRepair (calls ++ [c]) =
    if (afterCalls p calls).mispredicts c then calls ++ [c] else p.untilRepair calls := by
  induction calls generalizing p with
  | nil => cases h : p.mispredicts c <;> simp [untilRepair, h]
  | cons d calls ih =>
    have hrun : afterCalls p (d :: calls) = afterCalls (call p d).2 calls := rfl
    simp only [List.cons_append, untilRepair, ih, hrun]
    split <;> simp

theorem untilRepair_prefix : p.untilRepair calls <+: calls := by
  induction calls using List.reverseRecOn with
  | nil => exact List.prefix_rfl
  | append_singleton calls c ih =>
    rw [untilRepair_snoc]
    split
    · exact List.prefix_rfl
    · exact ih.trans (List.prefix_append _ _)

theorem made_untilRepair_le : made (p.untilRepair calls) ≤ made calls :=
  (p.untilRepair_prefix calls).sublist.countP_le

theorem resolved_untilRepair_le : resolved (p.untilRepair calls) ≤ resolved calls :=
  ((p.untilRepair_prefix calls).sublist.filterMap Call.outcome).length_le

/-- Both overloads of `predict`, from the history they read. -/
theorem call_predict (hc : c.isPredict = true) : ∃ pc history,
    p.savedBy c = some ⟨history, p.weightedSum (p.getIdx pc) history⟩ ∧
      (call p c).2 = (p.predictFrom pc history).2 := by
  cases c with
  | predict pc => exact ⟨pc, p.specHistory, rfl, rfl⟩
  | predictAddon pc addon addonLen => exact ⟨pc, p.addonHistory addon addonLen, rfl, rfl⟩
  | update | reset => cases hc

end

/-! ## The queue and the histories while predictions are outstanding -/

/-- After the calls the states `L` are pending; the histories hold what has been resolved
and, the speculative one, what is guessed of the pending branches. -/
structure InFlight (p : Perceptron ghrLen tableSize weightLen) (calls : List (Call Unit))
    (L : List Pstate) : Prop where
  queue : Ring.Holds (afterCalls p calls).pendingBP.head (afterCalls p calls).pendingBP.tail
    (afterCalls p calls).pendingBP.storage L
  saved_eq : p.saved calls = p.used calls ++ L
  real : Records (afterCalls p calls).realHistory (outcomes calls)
  spec : Records (afterCalls p calls).specHistory
    (p.kept calls (outcomes calls ++ L.map Pstate.guess))

namespace InFlight

variable {p : Perceptron ghrLen tableSize weightLen} {calls : List (Call Unit)} {c : Call Unit}
  {L : List Pstate} {state : Pstate}

theorem start (p : Perceptron ghrLen tableSize weightLen) : InFlight p.reset [] [] where
  queue := Ring.Holds.nil _ _
  saved_eq := rfl
  real := Records.nil
  spec := Records.nil

/-- What is pending has been predicted and not resolved. -/
theorem length_eq (h : InFlight p calls L) : made calls = resolved calls + L.length := by
  rw [← p.length_saved, ← p.length_used, h.saved_eq, List.length_append]

/-- An update that the queue allows finds something pending, or more would be resolved than
has been predicted. -/
theorem ne_nil (h : InFlight p calls L) {pc : Word} {taken : Bool}
    (hdone : resolved (calls ++ [.update pc taken ()]) ≤ made (calls ++ [.update pc taken ()])) :
    L ≠ [] := by
  rintro rfl
  have hlen := h.length_eq
  rw [resolved, outcomes_snoc, made_snoc, List.length_append, ← resolved] at hdone
  simp only [Call.outcome, Call.isPredict, Option.toList_some, List.length_singleton,
    List.length_nil, Bool.false_eq_true, if_false] at hdone hlen
  omega

/-- A prediction puts what it saves behind what is pending. -/
theorem predict (h : InFlight p calls L) (hc : c.isPredict = true)
    (hroom : made (calls ++ [c]) ≤ resolved (calls ++ [c]) + queueSize) :
    ∃ state, InFlight p (calls ++ [c]) (L ++ [state]) := by
  obtain ⟨pc, history, hsaved, hcall⟩ := (afterCalls p calls).call_predict c hc
  have hnone : c.outcome = none ∧ (afterCalls p calls).usedBy c = none ∧
      (afterCalls p calls).mispredicts c = false := by
    cases c with
    | predict | predictAddon => exact ⟨rfl, rfl, rfl⟩
    | update | reset => cases hc
  obtain ⟨hout, hused, hmis⟩ := hnone
  have houts : outcomes (calls ++ [c]) = outcomes calls := by
    rw [outcomes_snoc, hout, Option.toList_none, List.append_nil]
  have hlen := h.length_eq
  refine ⟨⟨history, (afterCalls p calls).weightedSum ((afterCalls p calls).getIdx pc) history⟩,
    ⟨?_, ?_, ?_, ?_⟩⟩
  · rw [afterCalls, Mealy.run_snoc, hcall]
    rw [made_snoc, if_pos hc, resolved, houts, ← resolved] at hroom
    apply h.queue.push
    simp only [queueSize] at hroom
    omega
  · rw [saved, Mealy.collect_snoc, used, Mealy.collect_snoc, hsaved, hused]
    rw [Option.toList_none, Option.toList_some, List.append_nil, ← saved, h.saved_eq,
      List.append_assoc]
  · rw [houts, afterCalls, Mealy.run_snoc, hcall]
    exact h.real
  · -- the guess is shifted in behind what is kept
    have hkept := h.spec.shiftIn
      (decide ((afterCalls p calls).weightedSum ((afterCalls p calls).getIdx pc) history ≥ 0))
    rw [houts, afterCalls, Mealy.run_snoc, hcall]
    have hrepair : p.untilRepair (calls ++ [c]) = p.untilRepair calls := by
      rw [untilRepair_snoc, hmis]
      rfl
    have hmade := p.made_untilRepair_le calls
    have hresolved := p.resolved_untilRepair_le calls
    have hall : (outcomes calls ++ L.map Pstate.guess).length = made calls := by
      rw [List.length_append, List.length_map, hlen, resolved]
    rw [List.map_append, ← List.append_assoc, kept, hrepair,
      List.take_append_of_le_length (by omega), List.drop_append_of_le_length (by omega),
      ← List.append_assoc]
    exact hkept

/-- An update takes the oldest of what is pending; a repair makes both histories equal. -/
theorem update (h : InFlight p calls (state :: L)) (pc : Word) (taken : Bool) :
    (afterCalls p calls).pendingBP.dequeue.1 = state ∧
      InFlight p (calls ++ [.update pc taken ()]) L := by
  obtain ⟨hstate, hqueue⟩ := h.queue.pop
  have hdequeue : (afterCalls p calls).pendingBP.dequeue.1 = state := hstate
  have hcall : afterCalls p (calls ++ [.update pc taken ()]) =
      (afterCalls p calls).update pc taken := by
    rw [afterCalls, Mealy.run_snoc]
    rfl
  have houts : outcomes (calls ++ [.update pc taken ()]) = outcomes calls ++ [taken] :=
    outcomes_snoc _ _
  have hreal : Records (afterCalls p (calls ++ [.update pc taken ()])).realHistory
      (outcomes (calls ++ [.update pc taken ()])) := by
    rw [hcall, houts, update_realHistory]
    exact h.real.shiftIn taken
  refine ⟨hdequeue, ?_, ?_, hreal, ?_⟩
  · rw [hcall, update_pendingBP]
    exact hqueue
  · rw [saved, Mealy.collect_snoc, used, Mealy.collect_snoc]
    show p.saved calls ++ [] = p.used calls ++ [(afterCalls p calls).pendingBP.dequeue.1] ++ L
    rw [h.saved_eq, hdequeue, List.append_nil, List.append_assoc, List.singleton_append]
  · have hmis : (afterCalls p calls).mispredicts (.update pc taken ()) =
        (state.guess != taken) := by
      rw [← hdequeue]
      rfl
    have hspec : (afterCalls p (calls ++ [.update pc taken ()])).specHistory =
        if state.guess != taken then
          (afterCalls p (calls ++ [.update pc taken ()])).realHistory
        else (afterCalls p calls).specHistory := by
      rw [hcall, update_specHistory, update_realHistory, hdequeue]
      rfl
    rw [hspec, kept, untilRepair_snoc, hmis]
    by_cases hwrong : (state.guess != taken) = true
    · -- all that is resolved is kept, and nothing of what is pending
      have hlen : made (calls ++ [.update pc taken ()]) =
          (outcomes (calls ++ [.update pc taken ()]) ++ L.map Pstate.guess).length := by
        have hmade := h.length_eq
        rw [List.length_cons] at hmade
        rw [made_snoc, houts, List.length_append, List.length_append, List.length_map,
          List.length_singleton, ← resolved, hmade]
        simp only [Call.isPredict, Bool.false_eq_true, if_false]
        omega
      rw [if_pos hwrong, if_pos hwrong, hlen, List.drop_length, List.append_nil, resolved,
        List.take_left']
      exact hreal
      rfl
    · -- the guess was the outcome
      have hright : state.guess = taken := by simpa using hwrong
      rw [if_neg hwrong, if_neg hwrong, houts, List.append_assoc, List.singleton_append, ← hright]
      exact h.spec

end InFlight

/-- Calls from reset that keep to the queue. -/
theorem inFlight_of_inOrder (p : Perceptron ghrLen tableSize weightLen)
    (calls : List (Call Unit)) : InOrder calls → ∃ L, InFlight p.reset calls L := by
  induction calls using List.reverseRecOn with
  | nil => intro _; exact ⟨[], InFlight.start p⟩
  | append_singleton calls c ih =>
    intro hcalls
    obtain ⟨hbefore, hreset, hdone, hroom⟩ := (inOrder_snoc calls c).1 hcalls
    obtain ⟨L, h⟩ := ih hbefore
    cases c with
    | predict | predictAddon =>
      obtain ⟨state, hstep⟩ := h.predict rfl hroom
      exact ⟨_, hstep⟩
    | update pc taken draw =>
      cases L with
      | nil => exact absurd rfl (h.ne_nil hdone)
      | cons state L => exact ⟨L, (h.update pc taken).2⟩
    | reset => cases hreset

/-- **Predictions in flight are trained in order.** After calls from reset that keep to the
queue, the states used are those saved by the first predictions, one for each update; and
an update that the queue allows trains on the state of the next prediction. -/
theorem trained_on_own_state (p : Perceptron ghrLen tableSize weightLen)
    (calls : List (Call Unit)) (h : InOrder calls) :
    p.reset.used calls = (p.reset.saved calls).take (resolved calls) ∧
    ∀ pc taken, InOrder (calls ++ [.update pc taken ()]) →
      ∃ state, (p.reset.saved calls)[resolved calls]? = some state ∧
        let q := afterCalls p.reset calls
        ((q.update pc taken).weights, (q.update pc taken).bias) =
            ((q.trainWith state pc taken).weights, (q.trainWith state pc taken).bias) ∧
          (q.update pc taken).specHistory =
            if state.guess != taken then shiftIn q.realHistory taken else q.specHistory := by
  obtain ⟨L, hL⟩ := inFlight_of_inOrder p calls h
  have hused : (p.reset.used calls).length = resolved calls := length_used p.reset calls
  refine ⟨?_, ?_⟩
  · rw [hL.saved_eq, ← hused, List.take_left]
  · intro pc taken hnext
    cases L with
    | nil => exact absurd rfl (hL.ne_nil ((inOrder_snoc calls _).1 hnext).2.2.1)
    | cons state L =>
      have hstate := (hL.update pc taken).1
      refine ⟨state, ?_, ?_, ?_⟩
      · rw [hL.saved_eq, ← hused, List.getElem?_append_right (le_refl _), Nat.sub_self]
        rfl
      · rw [update_weights_bias, hstate]
        rfl
      · rw [update_specHistory, hstate]
        rfl

/-- Five predictions go round the ring: the second update finds it full. -/
theorem trained_on_own_state_full :
    let calls : List (Call Unit) :=
      [.predict 0x400a10, .predict 0x400b20, .predictAddon 0x400c30 5 3, .predict 0x400d40,
        .update 0x400a10 false (), .predict 0x400e50]
    ∃ state, ((new 8 128 9).reset.saved calls)[1]? = some state ∧
      ((afterCalls (new 8 128 9).reset calls).update 0x400b20 true).weights =
        ((afterCalls (new 8 128 9).reset calls).trainWith state 0x400b20 true).weights := by
  intro calls
  have hown := (trained_on_own_state (new 8 128 9) calls (by decide)).2 0x400b20 true (by decide)
  obtain ⟨state, hsaved, htrained, _⟩ := hown
  exact ⟨state, hsaved, congrArg Prod.fst htrained⟩

/-- **Histories at rest.** When nothing is outstanding after calls from reset that keep to
the queue, the real history holds all outcomes, and the speculative one all but those of
the branches predicted before the last repair and resolved after it: when there are none,
the two are equal. -/
theorem histories_at_rest (p : Perceptron ghrLen tableSize weightLen)
    (calls : List (Call Unit)) (h : InOrder calls) (hrest : made calls = resolved calls) :
    let q := afterCalls p.reset calls
    let repair := p.reset.untilRepair calls
    Records q.realHistory (outcomes calls) ∧
    Records q.specHistory
      ((outcomes calls).take (resolved repair) ++ (outcomes calls).drop (made repair)) ∧
    (made repair = resolved repair → q.specHistory = q.realHistory) := by
  intro q repair
  obtain ⟨L, hL⟩ := inFlight_of_inOrder p calls h
  have hnone : L = [] := by
    have hlen := hL.length_eq
    exact List.eq_nil_of_length_eq_zero (by omega)
  have hspec := hL.spec
  rw [hnone, List.map_nil, List.append_nil] at hspec
  refine ⟨hL.real, hspec, ?_⟩
  intro hrepair
  have hall : p.reset.kept calls (outcomes calls) = outcomes calls := by
    rw [kept, hrepair, List.take_append_drop]
  rw [hall] at hspec
  exact hspec.unique hL.real

/-- Two predictions in flight, of which the younger one was wrong. -/
theorem histories_at_rest_repaired :
    let calls : List (Call Unit) := [.predict 0x400a10, .predict 0x400b20,
      .update 0x400a10 true (), .update 0x400b20 false ()]
    (afterCalls (new 8 128 9).reset calls).specHistory =
      (afterCalls (new 8 128 9).reset calls).realHistory := by
  intro calls
  exact (histories_at_rest (new 8 128 9) calls (by decide) (by decide)).2.2 (by decide)

/-- When the older one was wrong, its repair loses the guess of the younger one, which was
right. -/
theorem younger_guess_lost :
    let calls : List (Call Unit) := [.predict 0x400a10, .predict 0x400b20,
      .update 0x400a10 false (), .update 0x400b20 true ()]
    InOrder calls ∧ made calls = resolved calls ∧
      (afterCalls (new 8 128 9).reset calls).realHistory = 1 ∧
      (afterCalls (new 8 128 9).reset calls).specHistory = 0 := by
  refine ⟨by decide, by decide, by decide, by decide⟩

end Perceptron

end SandboxPredictor
