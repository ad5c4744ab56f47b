import SandboxPredictor.ChampSim.Core
import SandboxPredictor.Lib.Balance
import SandboxPredictor.Lib.Loop

/- What becomes of the instructions of the trace, over every run of the core.

   The three buffers are queues of instructions, oldest first. An instruction moves
   from the end of one queue to the next, and whatever else happens to it leaves its
   place and what it was given untouched (`Outline`). So what has retired, followed
   by what the three buffers hold, is always the trace as far as it has been read. -/
namespace SandboxPredictor

namespace CoreBuffer

/-- Where the instructions of a buffer lie and which they are. -/
structure Outline (n : Nat) where
  head : Fin (n + 1)
  tail : Fin (n + 1)
  occupancy : Nat
  arch : Fin (n + 1) → Arch

/-- The buffer is the queue `L`, and empty elsewhere. -/
structure Outline.Holds {n : Nat} (o : Outline n) (L : List Arch) : Prop where
  ring : Ring.Clean OooModelInstr.empty.arch o.head o.tail o.arch L
  occupancy : o.occupancy = L.length

variable {n : Nat} {b : CoreBuffer n} {L : List Arch} {a : Arch}

def outline (b : CoreBuffer n) : Outline n :=
  ⟨b.head, b.tail, b.occupancy, fun i => (b.entry i).arch⟩

/-- The instructions of a buffer, oldest first. -/
def contents (b : CoreBuffer n) : List Arch :=
  (List.range b.occupancy).map fun i => (b.entry (Ring.cell b.head i)).arch

theorem outline_modify (b : CoreBuffer n) (i : Fin (n + 1)) {f : OooModelInstr → OooModelInstr}
    (hf : ∀ x, (f x).arch = x.arch) : (b.modify i f).outline = b.outline := by
  have harch : (fun j => ((b.modify i f).entry j).arch) = fun j => (b.entry j).arch := by
    funext j
    by_cases hj : j = i
    · subst hj
      simp [modify, hf]
    · simp [modify, Function.update_of_ne hj]
  simp only [outline, harch]
  rfl

theorem outline_modifyAll (b : CoreBuffer n) (p : OooModelInstr → Bool)
    {f : OooModelInstr → OooModelInstr} (hf : ∀ x, (f x).arch = x.arch) :
    (b.modifyAll p f).outline = b.outline := by
  have harch : (fun j => ((b.modifyAll p f).entry j).arch) = fun j => (b.entry j).arch := by
    funext j
    simp only [modifyAll]
    split
    · exact hf _
    · rfl
  simp only [outline, harch]
  rfl

theorem Outline.Holds.contents_eq (h : b.outline.Holds L) : b.contents = L := by
  apply List.ext_getElem?
  intro i
  rcases Nat.lt_or_ge i L.length with hi | hi
  · have hocc : i < b.occupancy := hi.trans_eq h.occupancy.symm
    have hcell := h.ring.cells i hi
    simp only [contents, List.getElem?_map, List.getElem?_range hocc, hcell]
    rfl
  · have hocc : b.occupancy ≤ i := h.occupancy.trans_le hi
    rw [List.getElem?_eq_none hi, List.getElem?_eq_none (by simpa [contents] using hocc)]

theorem Outline.Holds.nil : ({} : CoreBuffer n).outline.Holds [] :=
  ⟨Ring.Clean.nil _ _, rfl⟩

theorem Outline.Holds.append (h : b.outline.Holds L) (hroom : b.occupancy < n + 1) (now : Nat)
    (x : OooModelInstr) : (b.append now x).outline.Holds (L ++ [x.arch]) := by
  have hlen : L.length < n + 1 := h.occupancy ▸ hroom
  have harch : (b.append now x).outline.arch
      = Function.update b.outline.arch b.outline.tail x.arch := by
    funext i
    by_cases hi : i = b.tail
    · subst hi
      simp [outline, CoreBuffer.append, OooModelInstr.arch]
    · simp [outline, CoreBuffer.append, Function.update_of_ne hi]
  refine ⟨?_, ?_⟩
  · rw [harch]
    exact h.ring.push hlen x.arch
  · calc b.occupancy + 1 = L.length + 1 := congrArg (· + 1) h.occupancy
      _ = (L ++ [x.arch]).length := by simp

/-- The assertion that the place is free holds while there is room. -/
theorem Outline.Holds.push (h : b.outline.Holds L) (hroom : b.occupancy < n + 1) (now : Nat)
    (x : OooModelInstr) : b.push now x = some (b.append now x) := by
  have hblank : (b.entry b.tail).arch = OooModelInstr.empty.arch :=
    h.ring.tail_blank (h.occupancy ▸ hroom)
  have hfree : (b.entry b.tail).instrId = 0 := congrArg Arch.instrId hblank
  simp [CoreBuffer.push, hfree]

theorem Outline.Holds.drop (h : b.outline.Holds (a :: L)) :
    (b.entry b.head).arch = a ∧ b.drop.outline.Holds L := by
  have harch : b.drop.outline.arch
      = Function.update b.outline.arch b.outline.head OooModelInstr.empty.arch := by
    funext i
    by_cases hi : i = b.head
    · subst hi
      simp [outline, CoreBuffer.drop]
    · simp [outline, CoreBuffer.drop, Function.update_of_ne hi]
  refine ⟨h.ring.head_eq, ?_, ?_⟩
  · rw [harch]
    exact h.ring.pop
  · have hocc : b.occupancy = L.length + 1 := h.occupancy
    show b.occupancy - 1 = L.length
    omega

/-- An instruction at the head is the first of the queue. -/
theorem Outline.Holds.exists_cons (h : b.outline.Holds L) (hip : (b.entry b.head).ip ≠ 0#64) :
    ∃ a L', L = a :: L' := by
  cases L with
  | nil => exact absurd (congrArg Arch.ip h.ring.head_blank) hip
  | cons a L' => exact ⟨a, L', rfl⟩

end CoreBuffer

/-! ## The program -/

namespace CoreConfig

variable {ρ : Type} (cfg : CoreConfig ρ)

/-- The record that the `k`-th instruction is made of. The first record is taken twice. -/
def record : Nat → InputInstr
  | 0 => cfg.trace 0
  | k + 1 => cfg.trace k

def instr (k : Nat) : OooModelInstr := (cfg.record k).archInstr k (cfg.trace k)

/-- The first `m` instructions. -/
def program (m : Nat) : List Arch := (List.range m).map fun k => (cfg.instr k).arch

/-- The branches among the first `m` instructions, with what their updates draw. -/
def branches (m : Nat) : List (Branch ρ) :=
  (((List.range m).map cfg.instr).filter (·.isBranch)).mapIdx fun i x =>
    ⟨x.ip, x.branchTaken, cfg.draw i⟩

theorem program_succ (m : Nat) : cfg.program (m + 1) = cfg.program m ++ [(cfg.instr m).arch] := by
  simp [program, List.range_succ]

theorem branches_succ_of_not {m : Nat} (h : (cfg.instr m).isBranch = false) :
    cfg.branches (m + 1) = cfg.branches m := by
  simp [branches, List.range_succ, h]

theorem branches_succ_of_branch {m : Nat} (h : (cfg.instr m).isBranch = true) :
    cfg.branches (m + 1) = cfg.branches m ++
      [⟨(cfg.instr m).ip, (cfg.instr m).branchTaken, cfg.draw (cfg.branches m).length⟩] := by
  simp [branches, List.range_succ, h]

end CoreConfig

/-! ## What the calls keep -/

namespace Core

variable {σ ρ : Type}

/-- What the order of the instructions and the branch predictor are about. -/
structure Progress (σ : Type) where
  predictor : σ
  instrUniqueId : Nat
  nextInstr : InputInstr
  numBranch : Nat
  branchMispredictions : Nat
  numRetired : Nat
  ifetch : CoreBuffer.Outline 11
  decode : CoreBuffer.Outline 17
  rob : CoreBuffer.Outline 351

def progress (c : Core σ) : Progress σ :=
  ⟨c.predictor, c.instrUniqueId, c.nextInstr, c.numBranch, c.branchMispredictions, c.numRetired,
    c.IFETCH_BUFFER.outline, c.DECODE_BUFFER.outline, c.ROB.outline⟩

section keep

variable {cfg : CoreConfig ρ} {now : Nat} {c c' : Core σ}

theorem outline_requestLine {n : Nat} (itlb l1i : Bool) (i : Fin (n + 1)) (b : CoreBuffer n) :
    (requestLine itlb l1i i b).outline = b.outline := by
  unfold requestLine
  extract_lets ip b₁
  have h₁ : b₁.outline = b.outline := by
    unfold b₁
    split
    · exact b.outline_modifyAll _ fun _ => rfl
    · rfl
  split
  · exact (b₁.outline_modifyAll _ (by intro _; rfl)).trans h₁
  · exact h₁

theorem outline_requestLoop {n : Nat} (itlb l1i : Fin (n + 1) → Bool) (l : List (Fin (n + 1)))
    (b : CoreBuffer n) : (requestLoop itlb l1i l b).outline = b.outline := by
  induction l generalizing b with
  | nil => rfl
  | cons i l ih =>
    unfold requestLoop
    split
    · rfl
    · rw [ih, outline_requestLine]

theorem outline_decodeLoop {n : Nat} (latency k : Nat) (i : Fin (n + 1)) (count : Nat)
    (b : CoreBuffer n) : (decodeLoop now latency k i count b).outline = b.outline := by
  induction k generalizing i count b with
  | zero => rfl
  | succ k ih =>
    unfold decodeLoop
    split
    · rfl
    · extract_lets isNew b' newCount
      have h' : b'.outline = b.outline := by
        unfold b'
        split
        · exact b.outline_modify i fun _ => rfl
        · rfl
      split
      · exact h'
      · exact (ih _ _ _).trans h'

theorem progress_rob {b : CoreBuffer 351} (h : b.outline = c.ROB.outline) :
    ({ c with ROB := b } : Core σ).progress = c.progress := by
  simp only [progress, h]

/-! ### Scheduling and waking -/

/-- A view of the core that does not show what scheduling and waking change: neither which
instructions wait for which, nor what is ready. -/
structure Blind {γ : Type} (g : Core σ → γ) : Prop where
  modify : ∀ (c : Core σ) (i : RobIndex) (f : OooModelInstr → OooModelInstr),
    (∀ x, (f x).work = x.work) → g { c with ROB := c.ROB.modify i f } = g c
  nextSchedule : ∀ (c : Core σ) (i : RobIndex),
    g { c with ROB := { c.ROB with nextSchedule := i } } = g c
  arrays : ∀ (c : Core σ) (q₀ q₁ : ReadyQueue), g { c with RTE0 := q₀, RTE1 := q₁ } = g c

theorem blind_progress : Blind (progress (σ := σ)) := by
  refine ⟨?_, fun _ _ => rfl, fun _ _ _ => rfl⟩
  intro c i f hf
  exact progress_rob (c.ROB.outline_modify i fun x => congrArg Prod.fst (hf x))

namespace Blind

variable {γ : Type} {g : Core σ → γ} (hg : Blind g)

include hg

theorem modifyIn {b : CoreBuffer 351} {i : RobIndex} {f : OooModelInstr → OooModelInstr}
    (hf : ∀ x, (f x).work = x.work) :
    g { c with ROB := b.modify i f } = g { c with ROB := b } :=
  hg.modify { c with ROB := b } i f hf

theorem regRAWDependency (prior current : RobIndex) (b : CoreBuffer 351)
    (j : Fin NUM_INSTR_SOURCES) :
    g { c with ROB := Core.regRAWDependency prior current b j } = g { c with ROB := b } := by
  unfold Core.regRAWDependency
  split
  · apply (hg.modifyIn ?_).trans (hg.modifyIn ?_)
    · intro _
      rfl
    · intro _
      rfl
  · rfl

theorem checkPrior (current : RobIndex) (b : CoreBuffer 351) (prior : RobIndex) :
    g { c with ROB := Core.checkPrior current b prior } = g { c with ROB := b } := by
  unfold Core.checkPrior
  split
  · apply Loop.foldl_keeps (g := fun b => g { c with ROB := b })
    intro b' j
    split
    · exact hg.regRAWDependency prior current b' j
    · rfl
  · rfl

theorem regDependency (b : CoreBuffer 351) (i : RobIndex) :
    g { c with ROB := Core.regDependency b i } = g { c with ROB := b } := by
  unfold Core.regDependency
  split
  · apply Loop.foldl_keeps (g := fun b => g { c with ROB := b })
    intro b' p
    exact hg.checkPrior i b' p
  · rfl

theorem doScheduling {i : RobIndex} (h : c.doScheduling cfg now i = some c') : g c' = g c := by
  unfold Core.doScheduling at h
  extract_lets b₁ b₂ c₁ at h
  have hb₂ : g { c with ROB := b₂ } = g c :=
    calc g { c with ROB := b₂ } = g { c with ROB := b₁ } :=
          hg.nextSchedule { c with ROB := b₁ } (Ring.next i)
      _ = g { c with ROB := c.ROB.modify i _ } := hg.regDependency _ i
      _ = g c := hg.modify c i _ (by intro _; rfl)
  have hc₁ : g c₁ = g c :=
    calc g c₁ = g { c with ROB := b₂ } := hg.modify { c with ROB := b₂ } i _ (by intro _; rfl)
      _ = g c := hb₂
  split at h
  · obtain rfl := Option.some.inj h
    calc _ = g { c with ROB := b₂ } := hg.modify { c with ROB := b₂ } i _ (by intro _; rfl)
      _ = g c := hb₂
  · split at h
    · obtain ⟨q, -, rfl⟩ := Option.map_eq_some_iff.1 h
      calc _ = g c₁ := hg.arrays c₁ c₁.RTE0 q
        _ = g c := hc₁
    · obtain rfl := Option.some.inj h
      exact hc₁

theorem scheduleLoop {l : List RobIndex} {numSearched : Nat}
    (h : c.scheduleLoop cfg now l numSearched = some c') : g c' = g c := by
  induction l generalizing numSearched c with
  | nil =>
    cases h
    rfl
  | cons i l ih =>
    unfold Core.scheduleLoop at h
    extract_lets x at h
    split_ifs at h with hstop hnew
    · cases h
      rfl
    · obtain ⟨c₁, hc₁, hrest⟩ := Option.bind_eq_some_iff.1 h
      exact (ih hrest).trans (hg.doScheduling hc₁)
    · exact ih h

theorem scheduleInstruction (h : c.scheduleInstruction cfg now = some c') : g c' = g c := by
  unfold Core.scheduleInstruction at h
  split at h
  · cases h
    rfl
  · exact hg.scheduleLoop h

theorem wake {i : RobIndex} (h : c.wake i = some c') : g c' = g c := by
  unfold Core.wake at h
  split at h
  · obtain rfl := Option.some.inj h
    exact hg.modify c i _ (by intro _; rfl)
  · obtain ⟨q, -, rfl⟩ := Option.map_eq_some_iff.1 h
    apply (hg.modify { c with RTE0 := q } i _ ?_).trans (hg.arrays c q c.RTE1)
    intro _
    rfl

theorem releaseSource {p i : RobIndex} (c : Core σ) (j : Fin NUM_INSTR_SOURCES) (c' : Core σ)
    (h : c.releaseSource p i j = some c') : g c' = g c := by
  unfold Core.releaseSource at h
  split at h
  · extract_lets c₁ at h
    have hc₁ : g c₁ = g c := hg.modify c i _ (by intro _; rfl)
    split at h
    · exact (hg.wake h).trans hc₁
    · obtain rfl := Option.some.inj h
      exact hc₁
  · obtain rfl := Option.some.inj h
    rfl

theorem regRAWRelease {p : RobIndex} (h : c.regRAWRelease p = some c') : g c' = g c :=
  Loop.foldlM_keeps (fun _ _ _ hv => Loop.foldlM_keeps hg.releaseSource hv) h

end Blind

/-! ### Execution -/

variable (cfg now) in
theorem progress_doExecution (i : RobIndex) (c : Core σ) :
    (c.doExecution cfg now i).progress = c.progress :=
  progress_rob (c.ROB.outline_modify i (by intro _; rfl))

theorem progress_execLoop0 (k : Nat) (c : Core σ) :
    (c.execLoop0 cfg now k).2.progress = c.progress := by
  induction k generalizing c with
  | zero => rfl
  | succ k ih =>
    unfold execLoop0
    split
    · rfl
    · split
      · exact (ih _).trans (progress_doExecution cfg now _ c)
      · rfl

theorem progress_execLoop1 (k : Nat) (c : Core σ) :
    (c.execLoop1 cfg now k).progress = c.progress := by
  induction k generalizing c with
  | zero => rfl
  | succ k ih =>
    unfold execLoop1
    split
    · rfl
    · split
      · exact (ih _).trans (progress_doExecution cfg now _ c)
      · rfl

theorem progress_executeInstruction (cfg : CoreConfig ρ) (now : Nat) (c : Core σ) :
    (c.executeInstruction cfg now).progress = c.progress := by
  unfold executeInstruction
  split
  · rfl
  · calc _ = (c.execLoop0 cfg now EXEC_WIDTH).2.progress := progress_execLoop1 _ _
      _ = c.progress := progress_execLoop0 EXEC_WIDTH c

theorem progress_complete {i : RobIndex} (h : c.complete now i = some c') :
    c'.progress = c.progress := by
  unfold complete at h
  extract_lets x c₁ at h
  have hc₁ : c₁.progress = c.progress := progress_rob (c.ROB.outline_modify i (by intro _; rfl))
  obtain ⟨c₂, hc₂, rfl⟩ := Option.map_eq_some_iff.1 h
  have hc₂' : c₂.progress = c₁.progress := by
    split at hc₂
    · exact blind_progress.regRAWRelease hc₂
    · obtain rfl := Option.some.inj hc₂
      rfl
  split
  · exact hc₂'.trans hc₁
  · exact hc₂'.trans hc₁

theorem progress_completeExecution (c : Core σ) (i : RobIndex) (c' : Core σ)
    (h : c.completeExecution now i = some c') : c'.progress = c.progress := by
  unfold completeExecution at h
  extract_lets x at h
  split_ifs at h
  · exact (progress_complete h).trans rfl
  · exact (Option.some.inj h) ▸ rfl
  · exact (progress_complete h).trans rfl
  · exact (Option.some.inj h) ▸ rfl
  · exact (Option.some.inj h) ▸ rfl

theorem progress_updateRob (h : c.updateRob now = some c') : c'.progress = c.progress := by
  unfold updateRob at h
  split at h
  · exact Loop.foldlM_keeps progress_completeExecution h
  · exact (Option.some.inj h) ▸ rfl

theorem progress_doMemoryScheduling (i : RobIndex) (c : Core σ) :
    (c.doMemoryScheduling i).progress = c.progress := by
  unfold doMemoryScheduling
  extract_lets x
  split
  · exact progress_rob (c.ROB.outline_modify i (by intro _; rfl))
  · rfl

theorem progress_memOpDone {i : RobIndex} {cycle : Nat} (h : c.memOpDone i cycle = some c') :
    c'.progress = c.progress := by
  unfold memOpDone at h
  extract_lets m at h
  split at h
  · cases h
  · obtain rfl := Option.some.inj h
    exact progress_rob (c.ROB.outline_modify i (by intro _; rfl))

theorem progress_completeInstrFetch (isItTlb : Bool) (ip : Word) (c : Core σ) :
    (c.completeInstrFetch isItTlb ip).progress = c.progress := by
  have hfetch : (c.completeInstrFetch isItTlb ip).IFETCH_BUFFER.outline
      = c.IFETCH_BUFFER.outline := by
    simp only [completeInstrFetch]
    split
    · exact c.IFETCH_BUFFER.outline_modifyAll _ (by intro _; rfl)
    · exact c.IFETCH_BUFFER.outline_modifyAll _ (by intro _; rfl)
  simp only [progress, hfetch]
  rfl

end keep

/-! ## The flow of the instructions -/

/-- The three buffers hold `R`, `D` and `F`; these are, after `done`, what has been read. -/
structure Flow (cfg : CoreConfig ρ) (done R D F : List Arch) (g : Progress σ) : Prop where
  rob : g.rob.Holds R
  decode : g.decode.Holds D
  ifetch : g.ifetch.Holds F
  program : done ++ R ++ D ++ F = cfg.program g.instrUniqueId
  next : ∀ k, g.instrUniqueId = k + 1 → g.nextInstr = cfg.trace k

/-- The prediction of a branch is wrong. -/
def mispredicted [Predictor σ ρ] (s : σ) (b : Branch ρ) : Bool := b.taken ≠ (execute s b).1.taken

/-- The predictor has run over the branches of the first `m` instructions. -/
structure Predicted [Predictor σ ρ] (cfg : CoreConfig ρ) (p : σ) (m : Nat) (s : σ)
    (numBranch branchMispredictions : Nat) : Prop where
  predictor : s = afterTrace p (cfg.branches m)
  numBranch : numBranch = (cfg.branches m).length
  mispredictions :
    branchMispredictions = (Mealy.observe execute mispredicted p (cfg.branches m)).countP id

/-- What has retired is `done`, and the predictor was `p`. -/
structure InOrder [Predictor σ ρ] (cfg : CoreConfig ρ) (p : σ) (done : List Arch)
    (c : Core σ) : Prop where
  flow : ∃ R D F, Flow cfg done R D F c.progress
  numRetired : c.numRetired = done.length
  predicted : Predicted cfg p c.instrUniqueId c.predictor c.numBranch c.branchMispredictions

section flow

variable [Predictor σ ρ] {cfg : CoreConfig ρ} {p : σ} {done : List Arch} {now : Nat}
  {c c' : Core σ}

theorem InOrder.congr (h : InOrder cfg p done c) (heq : c'.progress = c.progress) :
    InOrder cfg p done c' := by
  refine ⟨?_, ?_, ?_⟩
  · rw [heq]
    exact h.flow
  · calc c'.numRetired = c.numRetired := congrArg Progress.numRetired heq
      _ = done.length := h.numRetired
  · have hpred : Predicted cfg p c.progress.instrUniqueId c.progress.predictor
        c.progress.numBranch c.progress.branchMispredictions := h.predicted
    rw [← heq] at hpred
    exact hpred

/-- The instruction that is read next is the next one of the program. -/
theorem InOrder.nextInstr_eq (h : InOrder cfg p done c) :
    (if c.instrUniqueId = 0 then cfg.trace c.instrUniqueId else c.nextInstr)
      = cfg.record c.instrUniqueId := by
  obtain ⟨R, D, F, hflow⟩ := h.flow
  split
  · next h0 =>
    rw [h0]
    rfl
  · next h0 =>
    obtain ⟨k, hk⟩ := Nat.exists_eq_succ_of_ne_zero h0
    calc c.nextInstr = cfg.trace k := hflow.next k hk
      _ = cfg.record c.instrUniqueId := by
        rw [hk]
        rfl

end flow

section read

variable [Predictor σ ρ] {cfg : CoreConfig ρ} {p : σ} {done : List Arch} {warm : Bool}
  {now : Nat} {c c' : Core σ}

/-- What a branch does to the predictor and its counters. -/
def Progress.predict (cfg : CoreConfig ρ) (x : OooModelInstr) (g : Progress σ) : Progress σ :=
  let (prediction, predictor) := execute g.predictor ⟨x.ip, x.branchTaken, cfg.draw g.numBranch⟩
  { g with
    predictor := predictor, numBranch := g.numBranch + 1,
    branchMispredictions :=
      g.branchMispredictions + if x.branchTaken ≠ prediction.taken then 1 else 0 }

/-- What reading an instruction does: it is put at the end of the fetch buffer and, when it
is a branch, predicted. -/
def Progress.read (cfg : CoreConfig ρ) (x : OooModelInstr) (ifetch : CoreBuffer.Outline 11)
    (g : Progress σ) : Progress σ :=
  let g' := { g with
    nextInstr := cfg.trace g.instrUniqueId, instrUniqueId := g.instrUniqueId + 1,
    ifetch := ifetch }
  if x.isBranch then g'.predict cfg x else g'

theorem progress_predictBranch (i : Fin (11 + 1)) (x : OooModelInstr) (c : Core σ) :
    (c.predictBranch cfg warm i x).2.progress = c.progress.predict cfg x := by
  unfold predictBranch Progress.predict
  dsimp only [progress]
  split_ifs with htaken hwarm
  · have hmark := c.IFETCH_BUFFER.outline_modify i
      (f := ({ · with branchMispredicted := true })) (by intro _; rfl)
    simp only [hmark]
  · rfl
  · rfl

theorem progress_enter (x : OooModelInstr) (buffer : CoreBuffer 11) (current : InputInstr)
    (c : Core σ) :
    (c.enter cfg warm current (cfg.trace c.instrUniqueId) x buffer).2.progress
      = c.progress.read cfg x buffer.outline := by
  unfold enter Progress.read
  dsimp only
  split
  · rw [progress_predictBranch]
    rfl
  · rfl

theorem readInstr_spec (h : InOrder cfg p done c) (hroom : c.IFETCH_BUFFER.occupancy < 12) :
    ∃ r x, c.readInstr cfg warm now = some r
      ∧ x.arch = (cfg.instr c.instrUniqueId).arch
      ∧ r.2.progress = c.progress.read cfg (cfg.instr c.instrUniqueId)
          (c.IFETCH_BUFFER.append now x).outline := by
  obtain ⟨R, D, F, hflow⟩ := h.flow
  have hcur := h.nextInstr_eq
  unfold Core.readInstr
  extract_lets traceReadInstr current x
  have hx : x = cfg.instr c.instrUniqueId := by
    unfold x current traceReadInstr
    rw [hcur]
    rfl
  rw [hx, CoreBuffer.addToIfetchBuffer, hflow.ifetch.push hroom, Option.map_some]
  exact ⟨_, { cfg.instr c.instrUniqueId with translated := COMPLETED, fetched := 0 }, rfl, rfl,
    progress_enter _ _ _ _⟩

theorem Flow.read {R D F : List Arch} {g : Progress σ} {ifetch : CoreBuffer.Outline 11}
    (h : Flow cfg done R D F g)
    (hF : ifetch.Holds (F ++ [(cfg.instr g.instrUniqueId).arch])) :
    Flow cfg done R D (F ++ [(cfg.instr g.instrUniqueId).arch])
      (g.read cfg (cfg.instr g.instrUniqueId) ifetch) := by
  have hprogram : done ++ R ++ D ++ (F ++ [(cfg.instr g.instrUniqueId).arch])
      = cfg.program (g.instrUniqueId + 1) := by
    rw [cfg.program_succ, ← List.append_assoc, h.program]
  have hnext : ∀ k, g.instrUniqueId + 1 = k + 1 → cfg.trace g.instrUniqueId = cfg.trace k := by
    intro k hk
    rw [Nat.succ.inj hk]
  unfold Progress.read
  dsimp only
  split
  · exact ⟨h.rob, h.decode, hF, hprogram, hnext⟩
  · exact ⟨h.rob, h.decode, hF, hprogram, hnext⟩

theorem numRetired_read (x : OooModelInstr) (ifetch : CoreBuffer.Outline 11) (g : Progress σ) :
    (g.read cfg x ifetch).numRetired = g.numRetired := by
  unfold Progress.read
  dsimp only
  split
  · rfl
  · rfl

/-- A branch that is read goes through the predictor after all the branches before it. -/
theorem Predicted.read {x : OooModelInstr} {ifetch : CoreBuffer.Outline 11} {g : Progress σ}
    (h : Predicted cfg p g.instrUniqueId g.predictor g.numBranch g.branchMispredictions)
    (hx : x = cfg.instr g.instrUniqueId) :
    Predicted cfg p (g.read cfg x ifetch).instrUniqueId (g.read cfg x ifetch).predictor
      (g.read cfg x ifetch).numBranch (g.read cfg x ifetch).branchMispredictions := by
  subst hx
  unfold Progress.read
  dsimp only
  split
  · next hbranch =>
    have hsnoc := cfg.branches_succ_of_branch hbranch
    rw [← h.numBranch] at hsnoc
    have hrun : g.predictor = Mealy.run execute p (cfg.branches g.instrUniqueId) := h.predictor
    refine ⟨?_, ?_, ?_⟩
    · simp only [Progress.predict]
      rw [hsnoc, afterTrace, Mealy.run_snoc, ← hrun]
    · simp only [Progress.predict]
      rw [hsnoc, List.length_append, ← h.numBranch, List.length_singleton]
    · simp only [Progress.predict]
      rw [hsnoc, Mealy.observe_snoc, List.countP_append, ← h.mispredictions, ← hrun]
      simp [mispredicted, List.countP_singleton]
  · next hbranch =>
    have hsame := cfg.branches_succ_of_not (Bool.eq_false_iff.2 hbranch)
    refine ⟨?_, ?_, ?_⟩
    · rw [hsame]
      exact h.predictor
    · rw [hsame]
      exact h.numBranch
    · rw [hsame]
      exact h.mispredictions

theorem InOrder.readInstr (h : InOrder cfg p done c) (hroom : c.IFETCH_BUFFER.occupancy < 12) :
    ∃ r, c.readInstr cfg warm now = some r ∧ InOrder cfg p done r.2 := by
  obtain ⟨r, x, hread, hx, hprogress⟩ := readInstr_spec h hroom
  obtain ⟨R, D, F, hflow⟩ := h.flow
  have hF := hflow.ifetch.append hroom now x
  rw [hx] at hF
  refine ⟨r, hread, ⟨R, D, F ++ [(cfg.instr c.instrUniqueId).arch], ?_⟩, ?_, ?_⟩
  · rw [hprogress]
    exact hflow.read hF
  · calc r.2.numRetired = c.progress.numRetired := by
          show r.2.progress.numRetired = _
          rw [hprogress, numRetired_read]
      _ = done.length := h.numRetired
  · have hpred : Predicted cfg p r.2.progress.instrUniqueId r.2.progress.predictor
        r.2.progress.numBranch r.2.progress.branchMispredictions := by
      rw [hprogress]
      exact Predicted.read h.predicted rfl
    exact hpred

theorem InOrder.readLoop (reads : Nat) (h : InOrder cfg p done c)
    (hroom : c.IFETCH_BUFFER.occupancy < 12) :
    ∃ c', c.readLoop cfg warm now reads = some c' ∧ InOrder cfg p done c' := by
  induction reads generalizing c with
  | zero => exact ⟨c, rfl, h⟩
  | succ reads ih =>
    obtain ⟨r, hread, hr⟩ := h.readInstr hroom
    unfold Core.readLoop
    rw [hread, Option.bind_some]
    dsimp only
    split
    · exact ⟨r.2, rfl, hr⟩
    · next hgo =>
      obtain ⟨R, D, F, hflow⟩ := hr.flow
      have hocc : r.2.IFETCH_BUFFER.occupancy = F.length := hflow.ifetch.occupancy
      have hfits : F.length ≤ 12 := hflow.ifetch.ring.fits
      refine ih hr ?_
      have hne : r.2.IFETCH_BUFFER.occupancy ≠ 12 := fun he => hgo (by simp [he])
      omega

theorem InOrder.readFromTrace (h : InOrder cfg p done c) :
    ∃ c', c.readFromTrace cfg warm now = some c' ∧ InOrder cfg p done c' := by
  unfold Core.readFromTrace
  split
  · next hroom => exact h.readLoop FETCH_WIDTH hroom.1
  · exact ⟨c, rfl, h⟩

end read

section move

variable [Predictor σ ρ] {cfg : CoreConfig ρ} {p : σ} {done : List Arch} {now : Nat}
  {c c' : Core σ}

/-- The oldest instruction of the fetch buffer moves to the decode buffer. -/
theorem InOrder.send (now : Nat) (h : InOrder cfg p done c)
    (hip : (c.IFETCH_BUFFER.entry c.IFETCH_BUFFER.head).ip ≠ 0#64)
    (hroom : c.DECODE_BUFFER.occupancy < 18) :
    let x := c.IFETCH_BUFFER.entry c.IFETCH_BUFFER.head
    c.DECODE_BUFFER.addToDecodeBuffer now x = some (c.DECODE_BUFFER.append now x)
      ∧ InOrder cfg p done { c with
          DECODE_BUFFER := (c.DECODE_BUFFER.append now x).modify c.DECODE_BUFFER.tail
            ({ · with eventCycle := 0 }),
          IFETCH_BUFFER := c.IFETCH_BUFFER.drop } := by
  intro x
  obtain ⟨R, D, F, hflow⟩ := h.flow
  obtain ⟨a, F', rfl⟩ := hflow.ifetch.exists_cons hip
  obtain ⟨ha, hdrop⟩ := CoreBuffer.Outline.Holds.drop hflow.ifetch
  have happend := hflow.decode.append hroom now x
  rw [show x.arch = a from ha] at happend
  refine ⟨hflow.decode.push hroom now x, ⟨R, D ++ [a], F', ?_, ?_, ?_, ?_, ?_⟩, h.numRetired, h.predicted⟩
  · exact hflow.rob
  · simp only [progress]
    rw [CoreBuffer.outline_modify _ _ (by intro _; rfl)]
    exact happend
  · exact hdrop
  · calc done ++ R ++ (D ++ [a]) ++ F' = done ++ R ++ D ++ a :: F' := by simp
      _ = cfg.program c.instrUniqueId := hflow.program
  · exact hflow.next

theorem InOrder.sendLoop (k : Nat) (h : InOrder cfg p done c) :
    ∃ c', c.sendLoop now k = some c' ∧ InOrder cfg p done c' := by
  induction k generalizing c with
  | zero => exact ⟨c, rfl, h⟩
  | succ k ih =>
    unfold Core.sendLoop
    extract_lets x
    split_ifs with hip hready hroom
    · exact ⟨c, rfl, h⟩
    · obtain ⟨hpush, hsent⟩ := h.send now hip hroom
      rw [hpush, Option.bind_some]
      exact ih hsent
    · exact ⟨c, rfl, h⟩
    · exact ih h

theorem InOrder.fetchInstruction (itlb l1i : Fin (11 + 1) → Bool) (h : InOrder cfg p done c) :
    ∃ c', c.fetchInstruction now itlb l1i = some c' ∧ InOrder cfg p done c' := by
  unfold Core.fetchInstruction
  extract_lets c₁ places
  have hc₁ : c₁.progress = c.progress := by
    unfold c₁
    split
    · rfl
    · rfl
  split
  · exact ⟨c₁, rfl, h.congr hc₁⟩
  · refine InOrder.sendLoop DECODE_WIDTH (h.congr ?_)
    simp only [progress, outline_requestLoop]
    exact hc₁

/-- The oldest instruction of the decode buffer moves to the reorder buffer. -/
theorem InOrder.dispatch (now : Nat) (h : InOrder cfg p done c)
    (hx : (c.DECODE_BUFFER.entry c.DECODE_BUFFER.head).ip ≠ 0#64)
    (hroom : c.ROB.occupancy < 352) :
    let x := c.DECODE_BUFFER.entry c.DECODE_BUFFER.head
    c.ROB.addToRob now x = some (c.ROB.append now x)
      ∧ InOrder cfg p done { c with
          ROB := c.ROB.append now x, DECODE_BUFFER := c.DECODE_BUFFER.drop } := by
  intro x
  obtain ⟨R, D, F, hflow⟩ := h.flow
  obtain ⟨a, D', rfl⟩ := hflow.decode.exists_cons hx
  obtain ⟨ha, hdrop⟩ := CoreBuffer.Outline.Holds.drop hflow.decode
  have happend := hflow.rob.append hroom now x
  rw [show x.arch = a from ha] at happend
  refine ⟨?_, ⟨R ++ [a], D', F, ?_, ?_, ?_, ?_, ?_⟩, h.numRetired, h.predicted⟩
  · rw [CoreBuffer.addToRob, hflow.rob.push hroom now x, Option.bind_some, if_neg hx]
  · exact happend
  · exact hdrop
  · exact hflow.ifetch
  · calc done ++ (R ++ [a]) ++ D' ++ F = done ++ R ++ a :: D' ++ F := by simp
      _ = cfg.program c.instrUniqueId := hflow.program
  · exact hflow.next

theorem InOrder.dispatchLoop (now : Nat) (warm : Bool) (k count : Nat) (h : InOrder cfg p done c) :
    ∃ c', c.dispatchLoop now warm k count = some c' ∧ InOrder cfg p done c' := by
  induction k generalizing c count with
  | zero => exact ⟨c, rfl, h⟩
  | succ k ih =>
    unfold Core.dispatchLoop
    extract_lets x
    split
    · exact ⟨c, rfl, h⟩
    · next hip =>
      split
      · next hready =>
        have hroom : c.ROB.occupancy < 352 := by
          rcases hready with ⟨-, hroom⟩ | ⟨-, -, hroom⟩
          · exact hroom
          · exact hroom
        obtain ⟨hadd, hmoved⟩ := h.dispatch now hip hroom
        rw [hadd, Option.bind_some]
        dsimp only
        split
        · exact ⟨_, rfl, hmoved⟩
        · exact ih _ hmoved
      · exact ⟨c, rfl, h⟩

theorem InOrder.decodeAndDispatch {warm : Bool} (h : InOrder cfg p done c) :
    ∃ c', c.decodeAndDispatch now cfg warm = some c' ∧ InOrder cfg p done c' := by
  obtain ⟨c₁, hloop, hc₁⟩ := h.dispatchLoop now warm 18 0
  unfold Core.decodeAndDispatch
  rw [hloop, Option.map_some]
  refine ⟨_, rfl, hc₁.congr ?_⟩
  simp only [progress, outline_decodeLoop]

/-- The oldest instruction of the reorder buffer leaves. -/
theorem InOrder.retire (h : InOrder cfg p done c)
    (hip : (c.ROB.entry c.ROB.head).ip ≠ 0#64) :
    InOrder cfg p (done ++ [(c.ROB.entry c.ROB.head).arch]) { c with
      ROB := c.ROB.drop, completedExecutions := c.completedExecutions - 1,
      numRetired := c.numRetired + 1 } := by
  obtain ⟨R, D, F, hflow⟩ := h.flow
  obtain ⟨a, R', rfl⟩ := hflow.rob.exists_cons hip
  obtain ⟨ha, hdrop⟩ := CoreBuffer.Outline.Holds.drop hflow.rob
  refine ⟨⟨R', D, F, hdrop, hflow.decode, hflow.ifetch, ?_, hflow.next⟩, ?_, h.predicted⟩
  · rw [show (c.ROB.entry c.ROB.head).arch = a from ha]
    calc done ++ [a] ++ R' ++ D ++ F = done ++ a :: R' ++ D ++ F := by simp
      _ = cfg.program c.instrUniqueId := hflow.program
  · calc c.numRetired + 1 = done.length + 1 := congrArg (· + 1) h.numRetired
      _ = (done ++ [(c.ROB.entry c.ROB.head).arch]).length := by simp

theorem InOrder.retireLoop (room : Nat → Bool) (k : Nat) (h : InOrder cfg p done c) :
    InOrder cfg p (done ++ (c.retireLoop room k).1.map (·.arch)) (c.retireLoop room k).2 := by
  induction k generalizing c done with
  | zero => simpa [Core.retireLoop] using h
  | succ k ih =>
    have hstay : InOrder cfg p (done ++ ([] : List OooModelInstr).map (·.arch)) c := by simpa using h
    unfold Core.retireLoop
    extract_lets x
    split_ifs with hip hexec hstore
    · exact hstay
    · exact hstay
    · exact hstay
    · have hrest := ih (h.retire hip)
      rw [List.append_assoc] at hrest
      exact hrest

/-- What a step retires; nothing, when an assertion fails. -/
def retiredBy (out : Option (List OooModelInstr)) : List OooModelInstr := out.getD []

theorem InOrder.still {o : Option (Core σ)} (h : InOrder cfg p done c)
    (ho : ∀ c', o = some c' → InOrder cfg p done c') :
    InOrder cfg p (done ++ (retiredBy (step.still c o).1).map (·.arch)) (step.still c o).2 := by
  cases o with
  | none => simpa [step.still, retiredBy] using h
  | some c' => simpa [step.still, retiredBy] using ho c' rfl

theorem InOrder.still_of_exists {o : Option (Core σ)} (h : InOrder cfg p done c)
    (ho : ∃ c', o = some c' ∧ InOrder cfg p done c') :
    InOrder cfg p (done ++ (retiredBy (step.still c o).1).map (·.arch)) (step.still c o).2 := by
  obtain ⟨c₁, rfl, h₁⟩ := ho
  refine h.still ?_
  intro c' hc'
  exact (Option.some.inj hc') ▸ h₁

end move

/-! ## Every run -/

section run

variable [Predictor σ ρ] {cfg : CoreConfig ρ} {p : σ} {done : List Arch} {c : Core σ}

theorem InOrder.step (h : InOrder cfg p done c) (op : CoreOp) :
    InOrder cfg p (done ++ (retiredBy (c.step cfg op).1).map (·.arch)) (c.step cfg op).2 := by
  have hkeep : ∀ c' : Core σ, c'.progress = c.progress →
      InOrder cfg p (done ++ (retiredBy (some [])).map (·.arch)) c' := by
    intro c' hc'
    simpa [retiredBy] using h.congr hc'
  cases op with
  | readFromTrace warm now => exact h.still_of_exists h.readFromTrace
  | fetchInstruction itlb l1i now => exact h.still_of_exists (h.fetchInstruction itlb l1i)
  | completeInstrFetch isItTlb ip => exact hkeep _ (progress_completeInstrFetch isItTlb ip c)
  | decodeAndDispatch warm now => exact h.still_of_exists h.decodeAndDispatch
  | scheduleInstruction now => exact h.still fun c' hc' => h.congr (blind_progress.scheduleInstruction hc')
  | executeInstruction now => exact hkeep _ (progress_executeInstruction cfg now c)
  | updateRob now => exact h.still fun c' hc' => h.congr (progress_updateRob hc')
  | doMemoryScheduling i => exact hkeep _ (progress_doMemoryScheduling i c)
  | memOpDone i cycle => exact h.still fun c' hc' => h.congr (progress_memOpDone hc')
  | setEventCycle i cycle => exact hkeep _ (progress_rob (c.ROB.outline_modify i (by intro _; rfl)))
  | retireRob room => exact h.retireLoop room RETIRE_WIDTH

/-- What a run retires, in that order. -/
def retired (cfg : CoreConfig ρ) (c : Core σ) (ops : List CoreOp) : List OooModelInstr :=
  ((Mealy.outputs (step cfg) c ops).map retiredBy).flatten

theorem retired_cons (op : CoreOp) (ops : List CoreOp) :
    retired cfg c (op :: ops) = retiredBy (c.step cfg op).1 ++ retired cfg (c.step cfg op).2 ops :=
  rfl

theorem inOrder_init (cfg : CoreConfig ρ) (p : σ) : InOrder cfg p [] { predictor := p } where
  flow := by
    refine ⟨[], [], [], ⟨?_, ?_, ?_, rfl, ?_⟩⟩
    · exact CoreBuffer.Outline.Holds.nil
    · exact CoreBuffer.Outline.Holds.nil
    · exact CoreBuffer.Outline.Holds.nil
    · intro k hk
      cases hk
  numRetired := rfl
  predicted := ⟨rfl, rfl, rfl⟩

theorem InOrder.run (h : InOrder cfg p done c) (ops : List CoreOp) :
    InOrder cfg p (done ++ (retired cfg c ops).map (·.arch)) (Mealy.run (Core.step cfg) c ops) := by
  induction ops generalizing done c with
  | nil => simpa [retired, Mealy.outputs] using h
  | cons op ops ih =>
    have hrest := ih (h.step op)
    rw [List.append_assoc, ← List.map_append, ← retired_cons] at hrest
    exact hrest

/-- **Program order.** Over any run of the core, whatever the predictions, the latencies and
the memory system do: what has retired, in the order of retirement, and then what the
reorder buffer, the decode buffer and the fetch buffer hold, is the program as far as it has
been read. No instruction is lost, taken twice or overtaken, and no buffer overflows. -/
theorem retires_in_order (cfg : CoreConfig ρ) (p : σ) (ops : List CoreOp) :
    let c := Mealy.run (step cfg) { predictor := p } ops
    let done := retired cfg { predictor := p } ops
    done.map (·.arch) ++ c.ROB.contents ++ c.DECODE_BUFFER.contents ++ c.IFETCH_BUFFER.contents
        = cfg.program c.instrUniqueId
      ∧ c.numRetired = done.length
      ∧ c.ROB.occupancy ≤ 352 ∧ c.DECODE_BUFFER.occupancy ≤ 18
      ∧ c.IFETCH_BUFFER.occupancy ≤ 12 := by
  intro c done
  have h : InOrder cfg p (done.map (·.arch)) c := (inOrder_init cfg p).run ops
  obtain ⟨R, D, F, hflow⟩ := h.flow
  refine ⟨?_, ?_, ?_, ?_, ?_⟩
  · calc _ = done.map (·.arch) ++ R ++ D ++ F := by
          rw [hflow.rob.contents_eq, hflow.decode.contents_eq, hflow.ifetch.contents_eq]
      _ = cfg.program c.instrUniqueId := hflow.program
  · simpa using h.numRetired
  · exact hflow.rob.occupancy.trans_le hflow.rob.ring.fits
  · exact hflow.decode.occupancy.trans_le hflow.decode.ring.fits
  · exact hflow.ifetch.occupancy.trans_le hflow.ifetch.ring.fits

end run

end Core

end SandboxPredictor
