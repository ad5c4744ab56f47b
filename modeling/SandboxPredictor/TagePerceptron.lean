import SandboxPredictor.Perceptron
import SandboxPredictor.TageProviders

/- `TAGE` over a `Perceptron` base.

   TAGE asks its base for a prediction in every pair, and tells it the outcome by
   `update`, or by `updateHistory` when both providers were found. A `Perceptron`
   does not override `updateHistory`: in such a pair its prediction stays in the
   queue. The base consumes every prediction exactly as long as no two tables hit
   (`consumes_iff`). -/
namespace SandboxPredictor
namespace TAGE

variable {nTables idxLen len tableSize weightLen : Nat}

/-- What the base's `predict(pc)` saves. -/
def saved (p : Perceptron len tableSize weightLen) (pc : Word) : Pstate :=
  ⟨p.specHistory, p.weightedSum (p.getIdx pc) p.specHistory⟩

/-- The pair leaves nothing pending in the base, and if it updates the base, the update
takes from the queue what the base's prediction saved in the same pair and trains on it. -/
structure ConsumesBase (s : TAGE (Perceptron len tableSize weightLen) nTables idxLen)
    (b : Branch (Unit × Nat)) : Prop where
  empty : (execute s b).2.baseBP.pendingBP.head = (execute s b).2.baseBP.pendingBP.tail
  trained : ¬ ((s.predict b.pc).2.mainPred.valid && (s.predict b.pc).2.altPred.valid) = true →
    let p := (s.predict b.pc).2.baseBP
    p.pendingBP.dequeue.1 = saved s.baseBP b.pc ∧
      (execute s b).2.baseBP = p.update b.pc b.taken ∧
      Perceptron.TrainedOn p (execute s b).2.baseBP (saved s.baseBP b.pc) b.pc b.taken

variable {s : TAGE (Perceptron len tableSize weightLen) nTables idxLen}

/-- One pair over a settled base. -/
theorem consumes_iff_of_settled (h : s.baseBP.Settled) (b : Branch (Unit × Nat)) :
    ConsumesBase s b ↔ ¬ s.TwoHits b.pc := by
  have hbase := execute_baseBP s b
  refine ⟨?_, ?_⟩
  · intro hconsumes htwo
    rw [if_pos htwo] at hbase
    have hempty := hconsumes.empty
    rw [hbase] at hempty
    -- the prediction moved the tail, and nothing moved the head
    have htail : s.baseBP.pendingBP.head = s.baseBP.pendingBP.tail + 1 := hempty
    rw [h.empty] at htail
    simp at htail
  · intro htwo
    rw [if_neg htwo] at hbase
    refine ⟨?_, ?_⟩
    · rw [hbase]
      exact (s.baseBP.pair_settled b.pc s.baseBP.specHistory h b.taken).1.empty
    · intro _ p
      have hsaved : p.pendingBP.dequeue.1 = saved s.baseBP b.pc :=
        s.baseBP.predictFrom_dequeue b.pc s.baseBP.specHistory h
      refine ⟨hsaved, hbase, ?_⟩
      rw [hbase]
      exact p.update_trainedOn b.pc b.taken hsaved

/-- A pair that consumes keeps the base settled. -/
theorem execute_baseSettled (h : s.baseBP.Settled) (b : Branch (Unit × Nat))
    (hconsumes : ConsumesBase s b) : (execute s b).2.baseBP.Settled := by
  rw [execute_baseBP, if_neg ((consumes_iff_of_settled h b).1 hconsumes)]
  exact (s.baseBP.pair_settled b.pc s.baseBP.specHistory h b.taken).1

/-- **Where TAGE consumes every prediction of its base.** In a run from reset every pair
does if and only if in no pair of the run two tables hit the branch. -/
theorem consumes_iff (s : TAGE (Perceptron len tableSize weightLen) nTables idxLen)
    (tr : List (Branch (Unit × Nat))) :
    Mealy.Along execute ConsumesBase s.reset tr ↔
      Mealy.Along execute (fun t b => ¬ t.TwoHits b.pc) s.reset tr := by
  apply Mealy.along_congr (I := fun t => t.baseBP.Settled)
  · exact Perceptron.settled_reset s.baseBP
  · intro t b h
    exact consumes_iff_of_settled h b
  · intro t b h hconsumes
    exact execute_baseSettled h b hconsumes

/-- The cleared tables 0 and 1 both hit an address whose low four bits are 0: its
prediction by the base stays in the queue. -/
theorem base_prediction_left_pending :
    ¬ Mealy.Along execute ConsumesBase (new (Perceptron.new 8 128 9) 2 4)
      [⟨0x400a10, true, ((), 0)⟩] := by
  intro h
  have htwo : (new (Perceptron.new 8 128 9) 2 4).TwoHits 0x400a10 := by decide
  exact (consumes_iff_of_settled (Perceptron.settled_reset _) _).1 h.1 htwo

end TAGE
end SandboxPredictor
