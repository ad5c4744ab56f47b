import SandboxPredictor.Predictor

/- `NestLoop` (`nestloop.cc`), the loop predictor.

   An entry predicts a loop exit only when its count is ready and its age is
   positive. The update that finds the count ready is one of a branch that fell
   through although the entry had predicted taken, and the same update sets the
   age to 0; nothing but a reset of the entry raises it again. So an entry
   never gets to predict an exit (`EntryInv`), and the predictor is a static
   taken predictor of confidence 0 (`predictions_eq`). Nor does the history ever
   leave 0 (`call_history`). -/
namespace SandboxPredictor

/-- `nestloop_entry_t`. The counts saturate far below the range of their type. -/
structure NestloopEntry where
  age : BitVec 8
  tag : Word
  confidence : Nat
  loopCounts : Nat
  curCounts : Nat
  lastPred : Bool
  countReady : Bool
  deriving DecidableEq, Repr

/-- An object constructed as `NestLoop(counter_len, idx_len)`. The set at index `idx` is the
`assoc` entries from `idx` on. -/
structure NestLoop (counterLen idxLen : Nat) where
  history : Word
  content : Nat → NestloopEntry

namespace NestLoop

variable {counterLen idxLen : Nat}

def assoc : Nat := 4
def maxConfidence : Nat := 3
def maxAge : Nat := 255
def maxCount (counterLen : Nat) : Nat := 2 ^ counterLen - 1

def getThreshold (_ : NestLoop counterLen idxLen) : Nat := maxConfidence

/-- `reset`: the history keeps its value. -/
def reset (s : NestLoop counterLen idxLen) : NestLoop counterLen idxLen :=
  { s with content := fun _ => ⟨0, 0, 0, 0, 0, true, false⟩ }

def new (counterLen idxLen : Nat) : NestLoop counterLen idxLen :=
  reset ⟨0, fun _ => ⟨255, 0, 0, 0, 0, true, false⟩⟩

/-- `get_idx`, of type `unsigned`. -/
def getIdx (s : NestLoop counterLen idxLen) (pc : Word) : BitVec 32 :=
  let mask1 : Word := (1#64 <<< (idxLen + 2)) - 4#64
  let mask2 : Word := lowMask idxLen
  ((pc &&& mask1) ^^^ (s.history &&& mask2)).setWidth 32

/-- `get_tag`, of type `unsigned`. -/
def getTag (_ : NestLoop counterLen idxLen) (pc : Word) : BitVec 32 :=
  (pc >>> (idxLen + 2)).setWidth 32

/-- `lookup`: the first entry of the set with the tag. -/
def lookup (s : NestLoop counterLen idxLen) (pc : Word) : Option Nat :=
  let idx := (s.getIdx pc).toNat
  let targetTag := s.getTag pc
  ((List.range assoc).find? (fun i => (s.content (idx + i)).tag == targetTag.setWidth 64)).map
    (idx + ·)

/-- `content[i] = e`. -/
def setEntry (s : NestLoop counterLen idxLen) (i : Nat) (e : NestloopEntry) :
    NestLoop counterLen idxLen :=
  { s with content := Function.update s.content i e }

/-- `decay(idx)`. -/
def decay (s : NestLoop counterLen idxLen) (idx : Nat) : NestLoop counterLen idxLen :=
  { s with
    content := fun j =>
      let e := s.content j
      if idx ≤ j ∧ j < idx + assoc then { e with age := if e.age > 0 then e.age - 1 else e.age }
      else e }

/-- `add`: reset the first entry of age 0 for the branch, or age the set. -/
def add (s : NestLoop counterLen idxLen) (pc : Word) : Bool × NestLoop counterLen idxLen :=
  let idx := (s.getIdx pc).toNat
  let newTag := s.getTag pc
  match (List.range assoc).find? (fun i => (s.content (idx + i)).age == 0) with
  | some i =>
    (true, s.setEntry (idx + i) ⟨255, newTag.setWidth 64, 0, 0, 0, true, false⟩)
  | none => (false, s.decay idx)

/-- What `predict` does to the entry it found. -/
def predictEntry (maxCount : Nat) (e : NestloopEntry) : Prediction × NestloopEntry :=
  if e.countReady && decide (e.age > 0) then
    if e.curCounts < e.loopCounts then
      (⟨true, e.confidence⟩,
        { e with
          curCounts := if e.curCounts < maxCount then e.curCounts + 1 else e.curCounts
          lastPred := true })
    else (⟨false, e.confidence⟩, { e with curCounts := 0, lastPred := false })
  else (⟨true, 0⟩, { e with lastPred := true })

def predict (s : NestLoop counterLen idxLen) (pc : Word) :
    Prediction × NestLoop counterLen idxLen :=
  match s.lookup pc with
  | none => (⟨true, 0⟩, s)
  | some entry =>
    let (pred, e) := predictEntry (maxCount counterLen) (s.content entry)
    (pred, s.setEntry entry e)

/-- What `update` does to the entry it found or added: the three tests of the source, one
after the other. -/
def updateEntry (maxCount : Nat) (taken : Bool) (e : NestloopEntry) : NestloopEntry :=
  let e := if taken == e.lastPred then
      { e with
        confidence := if !taken && decide (e.confidence < maxConfidence) then e.confidence + 1
          else e.confidence
        age := if e.age.toNat > maxAge then e.age + 1 else e.age }
    else e
  let e := if !e.countReady then
      if taken then
        { e with loopCounts := if e.loopCounts < maxCount then e.loopCounts + 1 else e.loopCounts }
      else { e with countReady := true }
    else e
  if e.countReady && (taken != e.lastPred) then { e with age := 0 } else e

/-- `history = (history << 1) & taken`. -/
def shiftHistory (s : NestLoop counterLen idxLen) (taken : Bool) : NestLoop counterLen idxLen :=
  { s with history := (s.history <<< 1) &&& (if taken then 1 else 0) }

/-- The entry `update` works on: the one found before the history moves, or the one added
after it. -/
def findOrAdd (s : NestLoop counterLen idxLen) (pc : Word) (taken : Bool) :
    Option Nat × NestLoop counterLen idxLen :=
  match s.lookup pc with
  | some entry => (some entry, s.shiftHistory taken)
  | none =>
    let (added, s) := (s.shiftHistory taken).add pc
    if added then (s.lookup pc, s) else (none, s)

def update (s : NestLoop counterLen idxLen) (pc : Word) (taken : Bool) :
    NestLoop counterLen idxLen :=
  match s.findOrAdd pc taken with
  | (none, s) => s
  | (some entry, s) =>
    s.setEntry entry (updateEntry (maxCount counterLen) taken (s.content entry))

instance : Predictor (NestLoop counterLen idxLen) Unit where
  predict := predict
  update s _ pc taken := s.update pc taken
  reset := reset

/-! ## The history never leaves 0 -/

variable {s : NestLoop counterLen idxLen}

theorem shiftHistory_zero (h : s.history = 0) (taken : Bool) :
    (s.shiftHistory taken).history = 0 := by
  simp [shiftHistory, h]

theorem add_history (s : NestLoop counterLen idxLen) (pc : Word) :
    (s.add pc).2.history = s.history := by
  simp only [add]
  split <;> rfl

theorem predict_history (s : NestLoop counterLen idxLen) (pc : Word) :
    (s.predict pc).2.history = s.history := by
  simp only [predict]
  split <;> rfl

/-- `(history << 1) & taken` is 0 after a history of 0, and stays so. -/
theorem update_history (h : s.history = 0) (pc : Word) (taken : Bool) :
    (s.update pc taken).history = 0 := by
  have hfound : (s.findOrAdd pc taken).2.history = 0 := by
    unfold findOrAdd
    split
    · exact shiftHistory_zero h taken
    · have hadd : ((s.shiftHistory taken).add pc).2.history = 0 := by
        rw [add_history]
        exact shiftHistory_zero h taken
      dsimp only
      split <;> exact hadd
  simp only [update]
  split
  next heq =>
    rw [heq] at hfound
    exact hfound
  next heq =>
    rw [heq] at hfound
    exact hfound

theorem call_history (h : s.history = 0) (c : Call Unit) : (call s c).2.history = 0 := by
  cases c with
  | predict pc | predictAddon pc => exact (predict_history s pc).trans h
  | update pc taken => exact update_history h pc taken
  | reset => exact h

/-! ## No entry predicts an exit -/

/-- What holds of every entry: it has predicted taken, and once its count is ready it is
dead. -/
structure EntryInv (e : NestloopEntry) : Prop where
  lastPred : e.lastPred = true
  confidence : e.confidence = 0
  age : e.countReady = true → e.age = 0

def Inv (s : NestLoop counterLen idxLen) : Prop := ∀ i, EntryInv (s.content i)

theorem fresh_inv (age : BitVec 8) (tag : Word) : EntryInv ⟨age, tag, 0, 0, 0, true, false⟩ :=
  ⟨rfl, rfl, fun h => Bool.noConfusion h⟩

theorem reset_inv (s : NestLoop counterLen idxLen) : Inv s.reset := fun _ => fresh_inv 0 0

theorem new_inv : Inv (new counterLen idxLen) := reset_inv _

theorem setEntry_inv (h : Inv s) {i : Nat} {e : NestloopEntry} (he : EntryInv e) :
    Inv (s.setEntry i e) := by
  intro j
  by_cases hj : j = i
  · subst hj
    simpa [setEntry] using he
  · simpa [setEntry, Function.update_of_ne hj] using h j

theorem decay_inv (h : Inv s) (idx : Nat) : Inv (s.decay idx) := by
  intro j
  show EntryInv (if _ then _ else _)
  split
  · refine ⟨(h j).lastPred, (h j).confidence, ?_⟩
    intro hready
    -- an age of 0 is not decremented
    have h0 := (h j).age hready
    simp [h0]
  · exact h j

theorem add_inv (h : Inv s) (pc : Word) : Inv (s.add pc).2 := by
  simp only [add]
  split
  · apply setEntry_inv h
    exact fresh_inv _ _
  · exact decay_inv h _

theorem findOrAdd_inv (h : Inv s) (pc : Word) (taken : Bool) : Inv (s.findOrAdd pc taken).2 := by
  have hshift : Inv (s.shiftHistory taken) := h
  have hadd := add_inv hshift pc
  unfold findOrAdd
  split
  · exact h
  · dsimp only
    split <;> exact hadd

/-- An entry predicts taken, without confidence, and stays as it is. -/
theorem predictEntry_eq {e : NestloopEntry} (h : EntryInv e) (maxCount : Nat) :
    predictEntry maxCount e = (⟨true, 0⟩, e) := by
  have hdead : (e.countReady && decide (e.age > 0)) = false := by
    cases hready : e.countReady with
    | false => rfl
    | true => rw [h.age hready]; rfl
  have hsame : { e with lastPred := true } = e := by rw [← h.lastPred]
  rw [predictEntry, hdead, hsame]
  rfl

/-- An entry whose count gets ready dies in the same update. -/
theorem updateEntry_inv {e : NestloopEntry} (h : EntryInv e) (maxCount : Nat) (taken : Bool) :
    EntryInv (updateEntry maxCount taken e) := by
  obtain ⟨age, tag, confidence, loopCounts, curCounts, lastPred, countReady⟩ := e
  obtain ⟨hlast, hconf, hage⟩ := h
  dsimp only at hlast hconf hage
  subst hlast hconf
  cases taken with
  | true =>
    cases countReady with
    | true => exact ⟨rfl, rfl, fun _ => by simp [updateEntry, hage rfl]⟩
    | false => exact ⟨rfl, rfl, fun hready => Bool.noConfusion hready⟩
  | false =>
    -- the exit: the entry had predicted taken
    cases countReady <;> exact ⟨rfl, rfl, fun _ => rfl⟩

theorem predict_eq (h : Inv s) (pc : Word) : s.predict pc = (⟨true, 0⟩, s) := by
  simp only [predict]
  split
  · rfl
  next entry _ =>
    rw [predictEntry_eq (h entry)]
    dsimp only [setEntry]
    rw [Function.update_eq_self]

theorem update_inv (h : Inv s) (pc : Word) (taken : Bool) : Inv (s.update pc taken) := by
  have hfound := findOrAdd_inv h pc taken
  simp only [update]
  split
  next heq => rw [heq] at hfound; exact hfound
  next heq =>
    rw [heq] at hfound
    apply setEntry_inv hfound
    exact updateEntry_inv (hfound _) _ _

theorem execute_inv (b : Branch Unit) (h : Inv s) :
    execute s b = (⟨true, 0⟩, s.update b.pc b.taken) ∧ Inv (s.update b.pc b.taken) := by
  refine ⟨?_, update_inv h b.pc b.taken⟩
  show ((s.predict b.pc).1, (s.predict b.pc).2.update b.pc b.taken) = _
  rw [predict_eq h]

/-- The loop predictor is a static taken predictor. -/
theorem predictions_eq (h : Inv s) (tr : List (Branch Unit)) :
    predictions s tr = tr.map (fun _ => ⟨true, 0⟩) := by
  induction tr generalizing s with
  | nil => rfl
  | cons b tr ih =>
    obtain ⟨hstep, hinv⟩ := execute_inv b h
    show (execute s b).1 :: predictions (execute s b).2 tr = _
    rw [hstep, ih hinv]
    rfl

/-! ## A loop of constant trip count -/

/-- One execution of a loop: `N` taken branches and the exit. -/
def repetition (pc : Word) (N : Nat) : List (Branch Unit) :=
  List.replicate N ⟨pc, true, ()⟩ ++ [⟨pc, false, ()⟩]

/-- `R` executions of the loop. -/
def loopTrace (pc : Word) (N R : Nat) : List (Branch Unit) :=
  (List.replicate R (repetition pc N)).flatten

/-- From the third repetition on every prediction is the outcome. -/
def Learns (s : NestLoop counterLen idxLen) (pc : Word) (N R : Nat) : Prop :=
  ∀ m b, 2 * (N + 1) ≤ m → (loopTrace pc N R)[m]? = some b →
    ((predictions s (loopTrace pc N R))[m]?).map Prediction.taken = some b.taken

theorem repetition_length (pc : Word) (N : Nat) : (repetition pc N).length = N + 1 := by
  simp [repetition]

theorem loopTrace_length (pc : Word) (N R : Nat) : (loopTrace pc N R).length = R * (N + 1) := by
  simp [loopTrace, repetition_length]

/-- The third exit. -/
theorem loopTrace_exit (pc : Word) (N R : Nat) :
    (loopTrace pc N (R + 3))[2 * (N + 1) + N]? = some ⟨pc, false, ()⟩ := by
  have hlen := repetition_length pc N
  have hexit : (repetition pc N)[N]? = some ⟨pc, false, ()⟩ := by simp [repetition]
  have hsplit : loopTrace pc N (R + 3) =
      (repetition pc N ++ repetition pc N) ++ (repetition pc N ++ loopTrace pc N R) := by
    simp [loopTrace, List.replicate_succ, List.append_assoc]
  rw [hsplit, List.getElem?_append_right (by simp [hlen]; omega),
    List.getElem?_append_left (by simp [hlen]; omega), ← hexit]
  congr 1
  simp only [List.length_append, hlen]
  omega

/-- The third exit is predicted taken. -/
theorem not_learns (h : Inv s) (pc : Word) (N : Nat) {R : Nat} (hR : 3 ≤ R) :
    ¬ Learns s pc N R := by
  obtain ⟨R, rfl⟩ := Nat.exists_eq_add_of_le' hR
  intro hlearns
  have hexit := loopTrace_exit pc N R
  have hpred := hlearns _ _ (Nat.le_add_right _ _) hexit
  rw [predictions_eq h, List.getElem?_map, hexit] at hpred
  simp at hpred

/-- **The loop predictor learns no trip count.** From reset it is right from the third
repetition on only of runs that have no third repetition. -/
theorem learns_iff (s : NestLoop counterLen idxLen) (pc : Word) (N R : Nat) :
    Learns s.reset pc N R ↔ R ≤ 2 := by
  refine ⟨?_, ?_⟩
  · intro hlearns
    by_contra hR
    exact not_learns (reset_inv s) pc N (by omega) hlearns
  · intro hR m b hm hb
    -- there is no third repetition to be right about
    have hlen : m < (loopTrace pc N R).length := List.getElem?_eq_some_iff.1 hb |>.1
    have hle : R * (N + 1) ≤ 2 * (N + 1) := Nat.mul_le_mul_right _ hR
    rw [loopTrace_length] at hlen
    omega

/-- A loop of three iterations run three times, on the predictor of the default sizes. -/
theorem third_exit_mispredicted : ¬ Learns (new 14 8) 0x400a10 3 3 :=
  not_learns new_inv _ _ (le_refl 3)

end NestLoop

end SandboxPredictor
