import SandboxPredictor.ChampSim.Scoreboard

/- The core keeps its scoreboard.

   Each call of the core is followed through the columns of the reorder buffer and
   the two arrays of instructions that are ready to execute. The loop that looks for
   the producers of an instruction and the loop that tells the consumers of one are
   where the work is. -/
namespace SandboxPredictor

/-! ## The Ready-To-Execute arrays -/

/-- The two arrays hold the places with the property, each once. -/
structure Queued (q₀ q₁ : ReadyQueue) (P : RobIndex → Prop) : Prop where
  lists : ∃ L₀ L₁ : List RobIndex,
    Ring.Clean none q₀.head q₀.tail q₀.entry (L₀.map some)
      ∧ Ring.Clean none q₁.head q₁.tail q₁.entry (L₁.map some)
      ∧ (L₀ ++ L₁).Nodup ∧ ∀ i, i ∈ L₀ ++ L₁ ↔ P i

namespace Queued

variable {q₀ q₁ : ReadyQueue} {P P' : RobIndex → Prop} {i : RobIndex}

theorem symm (h : Queued q₀ q₁ P) : Queued q₁ q₀ P := by
  obtain ⟨L₀, L₁, h₀, h₁, hnodup, hmem⟩ := h.lists
  refine ⟨L₁, L₀, h₁, h₀, (List.perm_append_comm).nodup hnodup, ?_⟩
  intro i
  rw [← hmem, List.mem_append, List.mem_append, or_comm]

theorem congr (h : Queued q₀ q₁ P) (hP : ∀ i, P' i ↔ P i) : Queued q₀ q₁ P' := by
  obtain ⟨L₀, L₁, h₀, h₁, hnodup, hmem⟩ := h.lists
  exact ⟨L₀, L₁, h₀, h₁, hnodup, fun i => (hmem i).trans (hP i).symm⟩

/-- There is room for a place that is in neither array. -/
theorem push (h : Queued q₀ q₁ P) (hi : ¬ P i) (hP : ∀ k, P' k ↔ P k ∨ k = i) :
    ∃ q, q₀.push i = some q ∧ Queued q q₁ P' := by
  obtain ⟨L₀, L₁, h₀, h₁, hnodup, hmem⟩ := h.lists
  have hnew : i ∉ L₀ ++ L₁ := fun hin => hi ((hmem i).1 hin)
  have hlen : (i :: (L₀ ++ L₁)).length ≤ 352 := by
    simpa using (List.nodup_cons.2 ⟨hnew, hnodup⟩).length_le_card
  have hroom : (L₀.map some).length < 351 + 1 := by
    rw [List.length_cons, List.length_append] at hlen
    rw [List.length_map]
    omega
  have hblank := h₀.tail_blank hroom
  refine ⟨q₀.append i, ?_, L₀ ++ [i], L₁, ?_, h₁, ?_, ?_⟩
  · rw [ReadyQueue.push, hblank]
    rfl
  · rw [List.map_append]
    exact h₀.push hroom (some i)
  · have hperm : (L₀ ++ [i] ++ L₁).Perm (i :: (L₀ ++ L₁)) := by
      rw [List.append_assoc, List.singleton_append]
      exact List.perm_middle
    exact hperm.nodup_iff.2 (List.nodup_cons.2 ⟨hnew, hnodup⟩)
  · intro k
    rw [hP, ← hmem]
    simp only [List.mem_append, List.mem_singleton]
    tauto

/-- The first of an array is taken. -/
theorem pop (h : Queued q₀ q₁ P) (hi : q₀.entry q₀.head = some i)
    (hP : ∀ k, P' k ↔ P k ∧ k ≠ i) : P i ∧ Queued q₀.pop q₁ P' := by
  obtain ⟨L₀, L₁, h₀, h₁, hnodup, hmem⟩ := h.lists
  cases L₀ with
  | nil =>
    have hblank := h₀.head_blank
    rw [hi] at hblank
    cases hblank
  | cons a L₀ =>
    obtain rfl : i = a := Option.some.inj (hi.symm.trans h₀.head_eq)
    rw [List.cons_append, List.nodup_cons] at hnodup
    refine ⟨(hmem i).1 List.mem_cons_self, L₀, L₁, h₀.pop, h₁, hnodup.2, ?_⟩
    intro k
    rw [hP, ← hmem, List.cons_append, List.mem_cons]
    constructor
    · intro hk
      refine ⟨Or.inr hk, ?_⟩
      rintro rfl
      exact hnodup.1 hk
    · rintro ⟨hk | hk, hne⟩
      · exact absurd hk hne
      · exact hk

end Queued

/-! ## The columns -/

namespace CoreBuffer

variable {b : CoreBuffer 351} {i : RobIndex} {f : OooModelInstr → OooModelInstr}

theorem column_modify {β : Type} (g : OooModelInstr → β) (b : CoreBuffer 351) (i : RobIndex)
    (f : OooModelInstr → OooModelInstr) :
    (fun k => g ((b.modify i f).entry k))
      = Function.update (fun k => g (b.entry k)) i (g (f (b.entry i))) := by
  funext k
  by_cases hk : k = i
  · subst hk
    simp [modify]
  · simp [modify, hk]

theorem column_same {β : Type} {g : OooModelInstr → β} (hg : ∀ x, g (f x) = g x) :
    (fun k => g ((b.modify i f).entry k)) = fun k => g (b.entry k) := by
  rw [column_modify, hg]
  exact Function.update_eq_self i fun k => g (b.entry k)

/-- A change of how far an instruction has come. -/
theorem board_modify (hf : ∀ x, (f x).fetched = x.fetched) (ha : ∀ x, (f x).arch = x.arch)
    (hl : ∀ x, (f x).links = x.links) :
    (b.modify i f).board = b.board.setWait i (f (b.entry i)).wait := by
  simp only [board, column_same hf, column_same ha, column_same hl, column_modify OooModelInstr.wait]
  rfl

/-- A change of which instructions wait for an instruction. -/
theorem board_modify_links (hf : ∀ x, (f x).fetched = x.fetched)
    (ha : ∀ x, (f x).arch = x.arch) (hw : ∀ x, (f x).wait = x.wait) :
    (b.modify i f).board
      = { b.board with links := Function.update b.board.links i (f (b.entry i)).links } := by
  simp only [board, column_same hf, column_same ha, column_same hw,
    column_modify OooModelInstr.links]
  rfl

theorem entry_modify_ne {k : RobIndex} (hk : k ≠ i) : (b.modify i f).entry k = b.entry k := by
  simp [modify, hk]

end CoreBuffer

/-! ## Instructions that are not in the reorder buffer yet -/

/-- Nothing has been scheduled, nothing waits and no memory operation is done. -/
structure OooModelInstr.New (x : OooModelInstr) : Prop where
  wait : x.wait = {}
  links : x.links = {}
  isMemory : x.isMemory = decide (0 < x.numMemOps)
  numMemOps : 0 ≤ x.numMemOps

/-- What becomes of an instruction once it is in the reorder buffer. -/
def OooModelInstr.state (x : OooModelInstr) : Wait × Links × Arch × Int :=
  (x.wait, x.links, x.arch, x.numMemOps)

theorem OooModelInstr.New.congr {x y : OooModelInstr} (h : x.New) (hs : y.state = x.state) :
    y.New := by
  simp only [OooModelInstr.state, Prod.mk.injEq] at hs
  obtain ⟨hwait, hlinks, harch, hops⟩ := hs
  have hmemory : y.isMemory = x.isMemory := congrArg Arch.isMemory harch
  refine ⟨hwait.trans h.wait, hlinks.trans h.links, ?_, ?_⟩
  · rw [hmemory, hops]
    exact h.isMemory
  · rw [hops]
    exact h.numMemOps

theorem OooModelInstr.New.isMemory_iff {x : OooModelInstr} (h : x.New) :
    x.isMemory = true ↔ x.numMemOps ≠ 0 := by
  have hnonneg := h.numMemOps
  rw [h.isMemory, decide_eq_true_eq]
  omega

namespace CoreBuffer

variable {n : Nat} {b : CoreBuffer n} {i : Fin (n + 1)} {f : OooModelInstr → OooModelInstr}

def Fresh (b : CoreBuffer n) : Prop := ∀ i, (b.entry i).New

theorem Fresh.modify (h : b.Fresh) (hf : ∀ x, (f x).state = x.state) : (b.modify i f).Fresh := by
  intro k
  by_cases hk : k = i
  · subst hk
    apply (h k).congr
    rw [← hf (b.entry k)]
    simp [CoreBuffer.modify]
  · simpa [CoreBuffer.modify, hk] using h k

theorem Fresh.modifyAll {p : OooModelInstr → Bool} (h : b.Fresh)
    (hf : ∀ x, (f x).state = x.state) : (b.modifyAll p f).Fresh := by
  intro k
  simp only [CoreBuffer.modifyAll]
  split
  · exact (h k).congr (hf _)
  · exact h k

theorem entry_append (b : CoreBuffer n) (now : Nat) (x : OooModelInstr) :
    (b.append now x).entry = Function.update b.entry b.tail { x with eventCycle := now } := rfl

theorem entry_drop (b : CoreBuffer n) :
    b.drop.entry = Function.update b.entry b.head OooModelInstr.empty := rfl

theorem Fresh.append {x : OooModelInstr} (h : b.Fresh) (hx : x.New) (now : Nat) :
    (b.append now x).Fresh := by
  intro k
  by_cases hk : k = b.tail
  · subst hk
    rw [entry_append, Function.update_self]
    exact hx.congr rfl
  · rw [entry_append, Function.update_of_ne hk]
    exact h k

theorem Fresh.drop (h : b.Fresh) : b.drop.Fresh := by
  intro k
  by_cases hk : k = b.head
  · subst hk
    rw [entry_drop, Function.update_self]
    exact ⟨rfl, rfl, rfl, le_refl _⟩
  · rw [entry_drop, Function.update_of_ne hk]
    exact h k

end CoreBuffer

/-! ## Looking for the producers -/

namespace Board

section schedule

variable {B : Board} {b : CoreBuffer 351} {i p : RobIndex} {j : Fin NUM_INSTR_SOURCES}
  {w : Fin NUM_INSTR_SOURCES → Option RobIndex}

instance (B : Board) (i : RobIndex) (j : Fin NUM_INSTR_SOURCES) (q : RobIndex) :
    Decidable (B.Writes i j q) :=
  inferInstanceAs (Decidable (¬ (B.wait q).executed = COMPLETED ∧ _))

/-- The source `j` of `i` is made to wait for `p`, unless it waits already or needs not. -/
def chain (B : Board) (i p : RobIndex) (w : Fin NUM_INSTR_SOURCES → Option RobIndex)
    (j : Fin NUM_INSTR_SOURCES) : Option RobIndex :=
  (w j).or (if B.source i j ≠ 0#8 ∧ B.Writes i j p then some p else none)

theorem board_regRAWDependency (h : (b.entry p).arch.writes ((b.entry i).sourceRegisters j) = true)
    (hp : p ≠ i) :
    (Core.regRAWDependency p i b j).board = { b.board with
      wait := Function.update b.board.wait i { b.board.wait i with
        regReady := false
        numRegDependent := (b.board.wait i).numRegDependent + 1
        regRAWChecked := Function.update (b.board.wait i).regRAWChecked j true }
      links := Function.update b.board.links p {
        regRAWProducer := true
        instrs := (b.board.links p).instrs.insert (asMember i)
        index := Function.update (b.board.links p).index j
          (((b.board.links p).index j).insert (asMember i)) } } := by
  unfold Core.regRAWDependency
  rw [if_pos h, CoreBuffer.board_modify (by intro _; rfl) (by intro _; rfl) (by intro _; rfl),
    CoreBuffer.board_modify_links (by intro _; rfl) (by intro _; rfl) (by intro _; rfl),
    CoreBuffer.entry_modify_ne hp.symm]
  rfl

/-- One source is looked for in one older instruction. -/
theorem Linked.trySource (h : Linked B b.board i w) (hp : p ≠ i)
    (hdone : ¬ B.Done p) :
    Linked B (if (b.entry i).sourceRegisters j ≠ 0#8 ∧ (b.entry i).regRAWChecked j = false then
      Core.regRAWDependency p i b j else b).board i (Function.update w j (chain B i p w j)) := by
  have hsource : (b.entry i).sourceRegisters j = B.source i j := by
    rw [source, ← h.arch]
    rfl
  have hchecked : (b.entry i).regRAWChecked j = (w j).isSome := by
    show (b.board.wait i).regRAWChecked j = _
    rw [h.wait]
  have hwrites : (b.entry p).arch = B.arch p := by
    rw [← h.arch]
    rfl
  rw [hsource, hchecked]
  by_cases hgo : B.source i j ≠ 0#8 ∧ (w j).isSome = false
  · obtain ⟨hsrc, hnone⟩ := hgo
    have hw : w j = none := by simpa using hnone
    rw [if_pos ⟨hsrc, hnone⟩]
    by_cases hwr : (B.arch p).writes (B.source i j) = true
    · have hchain : chain B i p w j = some p := by
        simp [chain, hw, hsrc, Writes, hdone, hwr]
      rw [hchain, board_regRAWDependency (by rw [hwrites, hsource]; exact hwr) hp]
      exact h.link hw hp
    · have hchain : chain B i p w j = w j := by
        simp [chain, hw, Writes, hwr]
      have hsame : Core.regRAWDependency p i b j = b := by
        unfold Core.regRAWDependency
        rw [hwrites, hsource, if_neg hwr]
      rw [hchain, hsame, Function.update_eq_self]
      exact h
  · have hchain : chain B i p w j = w j := by
      unfold chain
      cases hw : w j with
      | some q => rfl
      | none =>
        have hsrc : ¬ B.source i j ≠ 0#8 := fun hne => hgo ⟨hne, by simp [hw]⟩
        simp [hsrc]
    rw [if_neg hgo, hchain, Function.update_eq_self]
    exact h

/-- All sources are looked for in one older instruction. -/
theorem Linked.checkPrior (h : Linked B b.board i w) (hp : p ≠ i) :
    Linked B (Core.checkPrior i b p).board i (chain B i p w) := by
  have hexec : (b.entry p).executed = (B.wait p).executed :=
    congrArg Wait.executed (h.wait_ne p hp)
  unfold Core.checkPrior
  rw [hexec]
  by_cases hdone : B.Done p
  · have hchain : chain B i p w = w := by
      funext j
      have hnot : ¬ (B.source i j ≠ 0#8 ∧ B.Writes i j p) := fun hc => hc.2.1 hdone
      simp [chain, hnot]
    have hcompleted : (B.wait p).executed = COMPLETED := hdone
    rw [if_neg (not_not.2 hcompleted), hchain]
    exact h
  · have hcompleted : (B.wait p).executed ≠ COMPLETED := hdone
    rw [if_pos hcompleted]
    have hloop : ∀ (l : List (Fin NUM_INSTR_SOURCES)) (b : CoreBuffer 351)
        (w : Fin NUM_INSTR_SOURCES → Option RobIndex), Linked B b.board i w →
        Linked B (l.foldl (fun b' j =>
          if (b'.entry i).sourceRegisters j ≠ 0#8 ∧ (b'.entry i).regRAWChecked j = false then
            Core.regRAWDependency p i b' j else b') b).board i
          fun j => if j ∈ l then chain B i p w j else w j := by
      intro l
      induction l with
      | nil =>
        intro b w h
        simpa using h
      | cons j l ih =>
        intro b w h
        have hrest := ih _ _ (h.trySource (j := j) hp hdone)
        have hfun : (fun k => if k ∈ l
            then chain B i p (Function.update w j (chain B i p w j)) k
            else Function.update w j (chain B i p w j) k)
            = fun k => if k ∈ j :: l then chain B i p w k else w k := by
          funext k
          by_cases hk : k = j
          · subst hk
            by_cases hkl : k ∈ l
            · simp [hkl, chain, Option.or_assoc]
            · simp [hkl]
          · simp [hk, chain]
        rw [hfun] at hrest
        exact hrest
    have hall := hloop (List.finRange NUM_INSTR_SOURCES) b w h
    simpa using hall

/-- The older instructions, in the order of the list. -/
theorem Linked.checkPriors (ps : List RobIndex) (hps : ∀ p ∈ ps, p ≠ i)
    (h : Linked B b.board i w) :
    Linked B (ps.foldl (Core.checkPrior i) b).board i fun j =>
      (w j).or (ps.find? fun p => decide (B.source i j ≠ 0#8 ∧ B.Writes i j p)) := by
  induction ps generalizing b w with
  | nil => simpa using h
  | cons p ps ih =>
    have hrest := ih (fun q hq => hps q (List.mem_cons_of_mem p hq))
      (h.checkPrior (hps p List.mem_cons_self))
    have hfun : (fun j => (chain B i p w j).or
        (ps.find? fun p => decide (B.source i j ≠ 0#8 ∧ B.Writes i j p)))
        = fun j => (w j).or
          ((p :: ps).find? fun p => decide (B.source i j ≠ 0#8 ∧ B.Writes i j p)) := by
      funext j
      rw [List.find?_cons, chain, Option.or_assoc]
      by_cases hw : B.source i j ≠ 0#8 ∧ B.Writes i j p
      · simp [hw]
      · simp [hw]
    rw [hfun] at hrest
    exact hrest

/-- `reg_dependency` finds for each source the youngest older instruction that writes it and
is not complete. -/
theorem Linked.regDependency (h : Linked B b.board i fun _ => none) :
    ∃ w, Linked B (Core.regDependency b i).board i w
      ∧ ∀ j p, w j = some p ↔ B.source i j ≠ 0#8 ∧ B.Youngest i (B.Writes i j) p := by
  have hhead : b.head = B.head := h.head
  unfold Core.regDependency
  split
  · next hne =>
    rw [hhead] at hne ⊢
    have hpos : 0 < B.age i := by
      rw [Nat.pos_iff_ne_zero]
      intro h0
      exact hne (Ring.age_inj (h0.trans (Ring.age_head B.head).symm))
    have hscan : Ring.scan B.head i = (List.range (B.age i)).map (Ring.cell B.head) := by
      have hcell := Ring.scan_cell B.head hpos (Ring.age_lt B.head i).le
      rwa [age, Ring.cell_age] at hcell
    refine ⟨_, h.checkPriors _ ?_, ?_⟩
    · intro p hp
      rw [hscan, List.mem_reverse, List.mem_map] at hp
      obtain ⟨k, hk, rfl⟩ := hp
      rintro he
      have hage := Ring.age_cell B.head ((List.mem_range.1 hk).trans (Ring.age_lt B.head i))
      rw [he] at hage
      exact absurd (List.mem_range.1 hk) (hage ▸ lt_irrefl _)
    · intro j p
      rw [Option.none_or, hscan]
      refine (Ring.find?_reverse_eq_some (Ring.age_lt B.head i).le).trans ?_
      simp only [decide_eq_true_eq]
      constructor
      · rintro ⟨hold, ⟨hsrc, hw⟩, hmax⟩
        exact ⟨hsrc, hold, hw, fun q hq hqw => hmax q hq ⟨hsrc, hqw⟩⟩
      · rintro ⟨hsrc, hold, hw, hmax⟩
        exact ⟨hold, ⟨hsrc, hw⟩, fun q hq hqw => hmax q hq hqw.2⟩
  · next heq =>
    rw [hhead, not_not] at heq
    refine ⟨_, h, ?_⟩
    intro j p
    refine iff_of_false (by simp) ?_
    rintro ⟨-, hold, -⟩
    have hlt : B.age p < B.age i := hold
    rw [heq, show B.age B.head = 0 from Ring.age_head B.head] at hlt
    exact Nat.not_lt_zero _ hlt

end schedule

/-! ## The core and its scoreboard -/

/-- Only the instruction `i` has gone on. -/
structure Only (B B' : Board) (i : RobIndex) : Prop where
  arch : B'.arch = B.arch
  wait : ∀ k, k ≠ i → B'.wait k = B.wait k

section ready

variable {B B' : Board} {q₀ q₁ : ReadyQueue} {i k : RobIndex}

theorem Only.setWait (B : Board) (i : RobIndex) (x : Wait) : Only B (B.setWait i x) i :=
  ⟨rfl, fun _ hk => Function.update_of_ne hk _ _⟩

theorem Only.ready_iff (h : Only B B' i) (hk : k ≠ i) : B'.Ready k ↔ B.Ready k := by
  simp only [Ready, h.arch, h.wait k hk]

theorem Only.queued (h : Only B B' i) (hq : Queued q₀ q₁ B.Ready) (hi : ¬ B.Ready i)
    (hi' : ¬ B'.Ready i) : Queued q₀ q₁ B'.Ready := by
  refine hq.congr ?_
  intro k
  by_cases hk : k = i
  · subst hk
    exact iff_of_false hi' hi
  · exact h.ready_iff hk

theorem Only.push (h : Only B B' i) (hq : Queued q₀ q₁ B.Ready) (hi : ¬ B.Ready i)
    (hi' : B'.Ready i) : ∃ q, q₀.push i = some q ∧ Queued q q₁ B'.Ready := by
  refine hq.push hi ?_
  intro k
  by_cases hk : k = i
  · subst hk
    exact iff_of_true hi' (Or.inr rfl)
  · rw [h.ready_iff hk]
    simp [hk]

end ready

end Board

namespace Core

variable {σ ρ : Type} {cfg : CoreConfig ρ} {now : Nat} {c c' : Core σ} {i : RobIndex}
  {r r' : RobIndex → Nat}

/-- The scoreboard of the core, with `r` still to be counted off, and the arrays of what is
ready. -/
structure Healthy (c : Core σ) (r : RobIndex → Nat) : Prop where
  board : c.ROB.board.Sound r
  queued : Queued c.RTE0 c.RTE1 c.ROB.board.Ready
  ifetch : c.IFETCH_BUFFER.Fresh
  decode : c.DECODE_BUFFER.Fresh

/-- The same, with nothing to be counted off. -/
abbrev Sane (c : Core σ) : Prop := c.Healthy fun _ => 0

theorem Sane.settled (h : c.Sane) : c.ROB.board.Settled := h.board

/-- `do_scheduling` of an instruction that is new. -/
theorem Sane.doScheduling (cfg : CoreConfig ρ) (now : Nat) (h : c.Sane) (hin : c.ROB.board.In i)
    (hnew : (c.ROB.entry i).scheduled = 0) :
    ∃ c', c.doScheduling cfg now i = some c' ∧ c'.Sane := by
  have hnew' : (c.ROB.board.wait i).scheduled = 0 := hnew
  obtain ⟨hexec, hunready, hchecked⟩ := (h.board.consistent i).fresh hnew'
  have hmod : (c.ROB.modify i ({ · with regReady := true })).board
      = c.ROB.board.setWait i { c.ROB.board.wait i with regReady := true } :=
    CoreBuffer.board_modify (by intro _; rfl) (by intro _; rfl) (by intro _; rfl)
  have hstart := Board.Linked.start hchecked
  rw [← hmod] at hstart
  obtain ⟨w, hl, hw⟩ := hstart.regDependency
  have hissue := h.settled.issue hin hnew' hl hw
  have hidle : ¬ c.ROB.board.Ready i := by
    rintro ⟨-, hready, -⟩
    rw [hunready] at hready
    cases hready
  unfold Core.doScheduling
  generalize hb : regDependency (c.ROB.modify i ({ · with regReady := true })) i = b at *
  extract_lets b₀ b' c₁
  have hmemory : (b'.entry i).isMemory = (c.ROB.board.arch i).isMemory :=
    congrArg Arch.isMemory (congrFun hl.arch i)
  have honly : ∀ x, Board.Only c.ROB.board (b.board.setWait i x) i := by
    intro x
    refine ⟨hl.arch, ?_⟩
    intro k hk
    rw [Board.setWait_ne hk, hl.wait_ne k hk]
  have hafter : ∀ x : Wait, (b.board.setWait i x).Ready i
      ↔ (c.ROB.board.arch i).isMemory = false ∧ x.regReady = true ∧ x.executed = 0 := by
    intro x
    rw [Board.Ready, Board.setWait_self, Board.setWait_arch, hl.arch]
  have hexec' : (b.board.wait i).executed = 0 := by
    rw [hl.wait]
    exact hexec
  rw [hmemory]
  cases hm : (c.ROB.board.arch i).isMemory with
  | true =>
    rw [hm, if_pos rfl] at hissue
    rw [if_pos rfl]
    refine ⟨_, rfl, ?_⟩
    have hboard : (b'.modify i ({ · with scheduled := INFLIGHT })).board
        = b.board.setWait i { b.board.wait i with scheduled := INFLIGHT } :=
      CoreBuffer.board_modify (by intro _; rfl) (by intro _; rfl) (by intro _; rfl)
    refine ⟨hboard ▸ hissue, ?_, h.ifetch, h.decode⟩
    rw [hboard]
    refine (honly _).queued h.queued hidle ?_
    simp [hafter, hm]
  | false =>
    rw [hm, if_neg Bool.false_ne_true] at hissue
    rw [if_neg Bool.false_ne_true]
    have hboard : c₁.ROB.board
        = b.board.setWait i { b.board.wait i with scheduled := COMPLETED } :=
      CoreBuffer.board_modify (b := b') (by intro _; rfl) (by intro _; rfl) (by intro _; rfl)
    split
    · next hready =>
      have hnow : c₁.ROB.board.Ready i := by
        rw [hboard, hafter]
        exact ⟨hm, hready, hexec'⟩
      obtain ⟨q, hpush, hq⟩ := Board.Only.push (hboard ▸ honly _) h.queued.symm hidle hnow
      refine ⟨{ c₁ with RTE1 := q }, ?_, hboard ▸ hissue, hq.symm, h.ifetch, h.decode⟩
      rw [hpush, Option.map_some]
    · next hready =>
      refine ⟨c₁, rfl, hboard ▸ hissue, ?_, h.ifetch, h.decode⟩
      refine Board.Only.queued (hboard ▸ honly _) h.queued hidle ?_
      rw [hboard, hafter]
      exact fun hnow => hready hnow.2.1

/-- An instruction that has arrived lies in the buffer. -/
theorem Healthy.inROB_of_fetched (h : c.Healthy r) (hi : (c.ROB.entry i).fetched = COMPLETED) :
    c.ROB.board.In i := by
  by_contra hout
  have hzero : (c.ROB.entry i).fetched = 0 := (h.board.blank i hout).2.2
  rw [hi] at hzero
  exact absurd hzero (by decide)

theorem Sane.scheduleLoop (l : List RobIndex) (numSearched : Nat) (h : c.Sane) :
    ∃ c', c.scheduleLoop cfg now l numSearched = some c' ∧ c'.Sane := by
  induction l generalizing c numSearched with
  | nil => exact ⟨c, rfl, h⟩
  | cons i l ih =>
    unfold Core.scheduleLoop
    extract_lets x
    split
    · exact ⟨c, rfl, h⟩
    · next hgo =>
      have hfetched : (c.ROB.entry i).fetched = COMPLETED := by
        by_contra hne
        exact hgo (Or.inl hne)
      split
      · next hnew =>
        obtain ⟨c₁, hdo, h₁⟩ := h.doScheduling cfg now (h.inROB_of_fetched hfetched) hnew
        rw [hdo, Option.bind_some]
        exact ih _ h₁
      · exact ih _ h

theorem Sane.scheduleInstruction (h : c.Sane) :
    ∃ c', c.scheduleInstruction cfg now = some c' ∧ c'.Sane := by
  unfold Core.scheduleInstruction
  split
  · exact ⟨c, rfl, h⟩
  · exact h.scheduleLoop _ 0

/-- What the scoreboard is about. -/
structure Engine where
  IFETCH_BUFFER : CoreBuffer 11
  DECODE_BUFFER : CoreBuffer 17
  ROB : CoreBuffer 351
  RTE0 : ReadyQueue
  RTE1 : ReadyQueue

def engine (c : Core σ) : Engine :=
  ⟨c.IFETCH_BUFFER, c.DECODE_BUFFER, c.ROB, c.RTE0, c.RTE1⟩

theorem Healthy.congr (h : c.Healthy r) (hc' : c'.engine = c.engine) : c'.Healthy r := by
  obtain ⟨hifetch, hdecode, hROB, h0, h1⟩ := Engine.mk.injEq .. ▸ hc'
  refine ⟨hROB ▸ h.board, ?_, hifetch ▸ h.ifetch, hdecode ▸ h.decode⟩
  rw [hROB, h0, h1]
  exact h.queued

/-! ## Execution -/

/-- `do_execution` of an instruction taken from one of the arrays. -/
theorem Sane.doExecution {q₀ q₁ : ReadyQueue} (h : c.Sane) (hready : c.ROB.board.Ready i)
    (hq : Queued q₀ q₁ fun k => c.ROB.board.Ready k ∧ k ≠ i) :
    ({ c.doExecution cfg now i with RTE0 := q₀, RTE1 := q₁ } : Core σ).Sane := by
  obtain ⟨hm, hreg, hexec⟩ := hready
  have hboard : (c.doExecution cfg now i).ROB.board
      = c.ROB.board.setWait i { c.ROB.board.wait i with executed := INFLIGHT } :=
    CoreBuffer.board_modify (by intro _; rfl) (by intro _; rfl) (by intro _; rfl)
  have hcons := h.board.consistent i
  have hsched := hcons.scheduled hreg
  refine ⟨?_, ?_, h.ifetch, h.decode⟩
  · rw [hboard]
    refine h.board.setWait (h.board.inROB_of_regReady hreg) ?_ Iff.rfl (h.board.count i)
      (fun _ _ => rfl) ?_
    · rw [Board.Done, hexec]
      exact iff_of_false (show INFLIGHT ≠ COMPLETED by decide) (by decide)
    · refine ⟨fun h0 => absurd h0 hsched, hcons.ready, fun _ => hreg, ?_, hcons.other,
        Or.inr (Or.inl rfl)⟩
      intro hm'
      rw [hm] at hm'
      cases hm'
  · refine hq.congr ?_
    intro k
    rw [hboard]
    by_cases hk : k = i
    · subst hk
      simp [Board.Ready, INFLIGHT]
    · rw [(Board.Only.setWait _ _ _).ready_iff hk]
      simp [hk]

theorem Sane.execLoop0 (k : Nat) (h : c.Sane) : (c.execLoop0 cfg now k).2.Sane := by
  induction k generalizing c with
  | zero => exact h
  | succ k ih =>
    unfold Core.execLoop0
    split
    · exact h
    · next i hi =>
      split
      · obtain ⟨hready, hq⟩ := h.queued.pop hi fun _ => Iff.rfl
        exact ih (h.doExecution hready hq)
      · exact h

theorem Sane.execLoop1 (k : Nat) (h : c.Sane) : (c.execLoop1 cfg now k).Sane := by
  induction k generalizing c with
  | zero => exact h
  | succ k ih =>
    unfold Core.execLoop1
    split
    · exact h
    · next i hi =>
      split
      · obtain ⟨hready, hq⟩ := h.queued.symm.pop hi fun _ => Iff.rfl
        exact ih (h.doExecution hready hq.symm)
      · exact h

theorem Sane.executeInstruction (h : c.Sane) : (c.executeInstruction cfg now).Sane := by
  unfold Core.executeInstruction
  split
  · exact h
  · exact (h.execLoop0 EXEC_WIDTH).execLoop1 _

/-! ## Telling the consumers -/

section release

variable {p : RobIndex} {j : Fin NUM_INSTR_SOURCES}

instance (B : Board) (p i : RobIndex) (j : Fin NUM_INSTR_SOURCES) : Decidable (B.Edge p i j) :=
  inferInstanceAs (Decidable (_ ∈ _))

/-- How many operands of `i` wait for `p`, among those of the list. -/
def waiting (B : Board) (p i : RobIndex) (l : List (Fin NUM_INSTR_SOURCES)) : Nat :=
  l.countP fun j => decide (B.Edge p i j)

/-- A consumer is told by one of its operands; with the last one it is woken. -/
theorem Healthy.releaseEdge (h : c.Healthy r) (he : c.ROB.board.Edge p i j) (hr : 0 < r i)
    {c₁ : Core σ} (hc₁ : c₁ = { c with
      ROB := c.ROB.modify i
        ({ · with numRegDependent := (c.ROB.entry i).numRegDependent - 1 }) }) :
    ∃ c', (if (c₁.ROB.entry i).numRegDependent = 0 then c₁.wake i else some c₁) = some c'
      ∧ c'.Healthy (Function.update r i (r i - 1)) ∧ c'.ROB.board.links = c.ROB.board.links := by
  obtain ⟨-, hin, hsched⟩ := h.board.older p i j he
  have hcons := h.board.consistent i
  have hcount := h.board.count i
  have hne : (c.ROB.board.wait i).numRegDependent ≠ 0 := by omega
  have hunready : (c.ROB.board.wait i).regReady = false :=
    Bool.eq_false_iff.2 fun hreg => hne ((hcons.ready hsched).1 hreg)
  have hexec : (c.ROB.board.wait i).executed = 0 := by
    by_contra hstarted
    rw [hcons.started hstarted] at hunready
    cases hunready
  have hidle : ¬ c.ROB.board.Ready i := by
    rintro ⟨-, hready, -⟩
    rw [hunready] at hready
    cases hready
  have hboard₁ : c₁.ROB.board = c.ROB.board.setWait i { c.ROB.board.wait i with
      numRegDependent := (c.ROB.board.wait i).numRegDependent - 1 } := by
    rw [hc₁]
    exact CoreBuffer.board_modify (by intro _; rfl) (by intro _; rfl) (by intro _; rfl)
  have hnum : (c₁.ROB.entry i).numRegDependent = (c.ROB.board.wait i).numRegDependent - 1 := by
    show (c₁.ROB.board.wait i).numRegDependent = _
    rw [hboard₁, Board.setWait_self]
  have hqueues : Queued c₁.RTE0 c₁.RTE1 c.ROB.board.Ready := by
    rw [hc₁]
    exact h.queued
  have hfront : c₁.IFETCH_BUFFER.Fresh ∧ c₁.DECODE_BUFFER.Fresh := by
    rw [hc₁]
    exact ⟨h.ifetch, h.decode⟩
  -- the consumer is not complete, whatever else happens to it
  have hsound : ∀ x : Wait, x.executed = 0 → x.scheduled ≠ 0 →
      x.numRegDependent = (c.ROB.board.wait i).numRegDependent - 1 →
      x.Consistent (c.ROB.board.arch i).isMemory →
      (c.ROB.board.setWait i x).Sound (Function.update r i (r i - 1)) := by
    intro x hx hs hn hc
    refine h.board.setWait hin ?_ (iff_of_true hs hsched) ?_ ?_ hc
    · rw [Board.Done, hx, hexec]
    · rw [hn, hcount, Function.update_self]
      omega
    · intro k hk
      exact Function.update_of_ne hk _ _
  split
  · next hlast =>
    rw [hnum] at hlast
    unfold Core.wake
    have hmemory : (c₁.ROB.entry i).isMemory = (c.ROB.board.arch i).isMemory := by
      show (c₁.ROB.board.arch i).isMemory = _
      rw [hboard₁, Board.setWait_arch]
    have hwoken := Wait.Consistent.woken (c.ROB.board.arch i).isMemory hexec hlast
    rw [hmemory]
    cases hm : (c.ROB.board.arch i).isMemory with
    | true =>
      rw [if_pos rfl]
      have hboard : (c₁.ROB.modify i ({ · with regReady := true, scheduled := INFLIGHT })).board
          = c₁.ROB.board.setWait i { c₁.ROB.board.wait i with
              regReady := true, scheduled := INFLIGHT } :=
        CoreBuffer.board_modify (by intro _; rfl) (by intro _; rfl) (by intro _; rfl)
      rw [hboard₁, Board.setWait_setWait, Board.setWait_self] at hboard
      refine ⟨_, rfl, ⟨?_, ?_, hfront.1, hfront.2⟩, ?_⟩
      · rw [hboard]
        refine hsound _ hexec (show INFLIGHT ≠ 0 by decide) rfl ?_
        rw [hm] at hwoken ⊢
        exact hwoken
      · refine Board.Only.queued (hboard ▸ Board.Only.setWait _ _ _) hqueues hidle ?_
        rw [hboard]
        simp [Board.Ready, hm]
      · rw [hboard]
        rfl
    | false =>
      rw [if_neg Bool.false_ne_true]
      have hboard : (c₁.ROB.modify i ({ · with regReady := true, scheduled := COMPLETED })).board
          = c₁.ROB.board.setWait i { c₁.ROB.board.wait i with
              regReady := true, scheduled := COMPLETED } :=
        CoreBuffer.board_modify (by intro _; rfl) (by intro _; rfl) (by intro _; rfl)
      rw [hboard₁, Board.setWait_setWait, Board.setWait_self] at hboard
      generalize c₁.ROB.modify i ({ · with regReady := true, scheduled := COMPLETED }) = b at hboard
      have hnow : b.board.Ready i := by
        rw [hboard, Board.Ready, Board.setWait_self]
        exact ⟨hm, rfl, hexec⟩
      obtain ⟨q, hpush, hq⟩ := Board.Only.push (hboard ▸ Board.Only.setWait _ _ _) hqueues hidle hnow
      rw [hpush, Option.map_some]
      refine ⟨_, rfl, ⟨?_, hq, hfront.1, hfront.2⟩, ?_⟩
      · rw [hboard]
        refine hsound _ hexec (show COMPLETED ≠ 0 by decide) rfl ?_
        rw [hm] at hwoken ⊢
        exact hwoken
      · rw [hboard]
        rfl
  · next hmore =>
    rw [hnum] at hmore
    refine ⟨c₁, rfl, ⟨?_, ?_, hfront.1, hfront.2⟩, ?_⟩
    · rw [hboard₁]
      refine hsound _ hexec hsched rfl ?_
      refine ⟨fun h0 => absurd h0 hsched, ?_, hcons.started, hcons.memory, hcons.other,
        hcons.executed⟩
      intro _
      exact iff_of_false (by simp [hunready]) hmore
    · refine Board.Only.queued (hboard₁ ▸ Board.Only.setWait _ _ _) hqueues hidle ?_
      rw [hboard₁]
      simp [Board.Ready, hunready]
    · rw [hboard₁]
      rfl

theorem Healthy.releaseSource (h : c.Healthy r) (hr : c.ROB.board.Edge p i j → 0 < r i) :
    ∃ c', c.releaseSource p i j = some c' ∧ c'.ROB.board.links = c.ROB.board.links
      ∧ c'.Healthy (Function.update r i (r i - if c.ROB.board.Edge p i j then 1 else 0)) := by
  unfold Core.releaseSource
  rw [FastSet.search_eq]
  by_cases he : c.ROB.board.Edge p i j
  · have hmem : asMember i ∈ ((c.ROB.entry p).registersIndexDependOnMe j).toFinset := he
    obtain ⟨c', hdo, hc', hlinks⟩ := h.releaseEdge he (hr he) rfl
    rw [if_pos (by simp [hmem]), if_pos he]
    exact ⟨c', hdo, hlinks, hc'⟩
  · have hmem : asMember i ∉ ((c.ROB.entry p).registersIndexDependOnMe j).toFinset := he
    rw [if_neg (by simp [hmem]), if_neg he, Nat.sub_zero, Function.update_eq_self]
    exact ⟨c, rfl, rfl, h⟩

theorem edge_congr {B B' : Board} (h : B'.links = B.links) : B'.Edge p i j ↔ B.Edge p i j := by
  rw [Board.Edge, Board.Edge, h]

theorem waiting_congr {B B' : Board} (h : B'.links = B.links) (l : List (Fin NUM_INSTR_SOURCES)) :
    waiting B' p i l = waiting B p i l := by
  simp only [waiting, edge_congr h]

/-- A consumer is told by all of its operands. -/
theorem Healthy.releaseSources (l : List (Fin NUM_INSTR_SOURCES)) (h : c.Healthy r)
    (hr : r i = waiting c.ROB.board p i l) :
    ∃ c', l.foldlM (Core.releaseSource p i) c = some c' ∧ c'.ROB.board.links = c.ROB.board.links
      ∧ c'.Healthy (Function.update r i 0) := by
  induction l generalizing c r with
  | nil =>
    have hzero : r i = 0 := hr
    rw [← hzero, Function.update_eq_self]
    exact ⟨c, rfl, rfl, h⟩
  | cons j l ih =>
    have hcons : r i
        = waiting c.ROB.board p i l + if c.ROB.board.Edge p i j then 1 else 0 := by
      rw [hr, waiting, List.countP_cons]
      simp [waiting]
    obtain ⟨c₁, hdo, hlinks, h₁⟩ := h.releaseSource (p := p) (i := i) (j := j) (by
      intro he
      rw [if_pos he] at hcons
      omega)
    obtain ⟨c', hloop, hlinks', h'⟩ := ih h₁ (by
      rw [Function.update_self, waiting_congr hlinks]
      omega)
    rw [Function.update_idem] at h'
    refine ⟨c', ?_, hlinks'.trans hlinks, h'⟩
    rw [List.foldlM_cons, hdo]
    exact hloop

/-- All consumers of `p` are told. -/
theorem Healthy.releaseAll (vs : List SetValue) (hvs : ∀ v ∈ vs, ∃ i, v = asMember i)
    (hnodup : vs.Nodup) (h : c.Healthy r)
    (hr : ∀ i, r i = if asMember i ∈ vs then
      waiting c.ROB.board p i (List.finRange NUM_INSTR_SOURCES) else 0) :
    ∃ c', vs.foldlM (fun c v =>
        (List.finRange NUM_INSTR_SOURCES).foldlM (Core.releaseSource p (ofMember v)) c) c = some c'
      ∧ c'.Sane := by
  induction vs generalizing c r with
  | nil =>
    have hzero : r = fun _ => 0 := by
      funext i
      simpa using hr i
    rw [hzero] at h
    exact ⟨c, rfl, h⟩
  | cons v vs ih =>
    obtain ⟨i, rfl⟩ := hvs v List.mem_cons_self
    rw [List.nodup_cons] at hnodup
    obtain ⟨c₁, hdo, hlinks, h₁⟩ := h.releaseSources (i := i) (List.finRange NUM_INSTR_SOURCES)
      (by rw [hr i, if_pos List.mem_cons_self])
    obtain ⟨c', hloop, h'⟩ := ih (fun v hv => hvs v (List.mem_cons_of_mem _ hv)) hnodup.2 h₁ (by
      intro k
      rw [waiting_congr hlinks]
      by_cases hk : k = i
      · subst hk
        rw [Function.update_self, if_neg hnodup.1]
      · have hne : asMember k ≠ asMember i := fun heq => hk (asMember_inj heq)
        rw [Function.update_of_ne hk, hr k]
        simp [hne])
    refine ⟨c', ?_, h'⟩
    rw [List.foldlM_cons, ofMember_asMember, hdo]
    exact hloop

theorem Healthy.regRAWRelease
    (h : c.Healthy fun i => waiting c.ROB.board p i (List.finRange NUM_INSTR_SOURCES)) :
    ∃ c', c.regRAWRelease p = some c' ∧ c'.Sane := by
  have hmember : ∀ v ∈ (c.ROB.entry p).registersInstrsDependOnMe.toFinset,
      ∃ i j, v = asMember i ∧ c.ROB.board.Edge p i j := fun v hv => (h.board.instrs p v).1 hv
  unfold Core.regRAWRelease
  rw [FastSet.expand_eq _ (by
    intro v hv
    obtain ⟨i, -, rfl, -⟩ := hmember v hv
    exact asMember_lt i)]
  refine h.releaseAll _ ?_ (Finset.sort_nodup _ _) ?_
  · intro v hv
    obtain ⟨i, -, hi, -⟩ := hmember v ((Finset.mem_sort _).1 hv)
    exact ⟨i, hi⟩
  · intro i
    by_cases hi : asMember i ∈ (c.ROB.entry p).registersInstrsDependOnMe.toFinset
    · rw [if_pos ((Finset.mem_sort _).2 hi)]
    · rw [if_neg (fun hv => hi ((Finset.mem_sort _).1 hv))]
      refine List.countP_eq_zero.2 ?_
      intro j _
      have hnot : ¬ c.ROB.board.Edge p i j :=
        fun he => hi ((h.board.instrs p _).2 ⟨i, j, rfl, he⟩)
      simpa using hnot

/-- An instruction that was being executed is complete. -/
theorem Sane.complete (h : c.Sane) (hi : (c.ROB.entry i).executed = INFLIGHT) :
    ∃ c', c.complete now i = some c' ∧ c'.Sane := by
  have hi' : (c.ROB.board.wait i).executed = INFLIGHT := hi
  unfold Core.complete
  extract_lets x c₁
  have hboard : c₁.ROB.board
      = c.ROB.board.setWait i { c.ROB.board.wait i with executed := COMPLETED } :=
    CoreBuffer.board_modify (by intro _; rfl) (by intro _; rfl) (by intro _; rfl)
  have hwaiting : (fun k => (Finset.univ.filter (c.ROB.board.Edge i k)).card)
      = fun k => waiting c₁.ROB.board i k (List.finRange NUM_INSTR_SOURCES) := by
    funext k
    rw [hboard, waiting_congr Board.setWait_links, waiting, WaitGraph.card_filter_finRange]
  have hsound := h.settled.finish hi'
  have h₁ : c₁.Healthy fun k => waiting c₁.ROB.board i k (List.finRange NUM_INSTR_SOURCES) := by
    refine ⟨?_, ?_, h.ifetch, h.decode⟩
    · rw [← hwaiting, hboard]
      convert hsound
    · refine Board.Only.queued (hboard ▸ Board.Only.setWait _ _ _) h.queued ?_ ?_
      · rintro ⟨-, -, hexec⟩
        rw [hi'] at hexec
        cases hexec
      · rw [hboard]
        simp [Board.Ready, COMPLETED]
  have hrelease : ∃ c₂, (if x.regRAWProducer then c₁.regRAWRelease i else some c₁) = some c₂
      ∧ c₂.Sane := by
    split
    · exact h₁.regRAWRelease
    · next hproducer =>
      refine ⟨c₁, rfl, ?_⟩
      have hnone : (fun k => waiting c₁.ROB.board i k (List.finRange NUM_INSTR_SOURCES))
          = fun _ => 0 := by
        funext k
        refine List.countP_eq_zero.2 ?_
        intro j _
        have hnot : ¬ c₁.ROB.board.Edge i k j := by
          intro he
          rw [edge_congr (hboard ▸ Board.setWait_links)] at he
          exact hproducer (h.board.producer i k j he)
        simpa using hnot
      rw [hnone] at h₁
      exact h₁
  obtain ⟨c₂, hdo, h₂⟩ := hrelease
  rw [hdo, Option.map_some]
  refine ⟨_, rfl, ?_⟩
  split
  · exact h₂.congr rfl
  · exact h₂

theorem Sane.completeExecution (h : c.Sane) (i : RobIndex) :
    ∃ c', c.completeExecution now i = some c' ∧ c'.Sane := by
  unfold Core.completeExecution
  extract_lets x
  split_ifs with hm hgo hops hgo
  · exact Sane.complete (h.congr rfl) hgo.1
  · exact ⟨c, rfl, h⟩
  · exact Sane.complete (h.congr rfl) hgo.1
  · exact ⟨c, rfl, h⟩
  · exact ⟨c, rfl, h⟩

theorem Sane.updateRob (h : c.Sane) : ∃ c', c.updateRob now = some c' ∧ c'.Sane := by
  unfold Core.updateRob
  split
  · exact Loop.foldlM_inv (P := Sane) (fun c i _ hc => hc.completeExecution i) h
  · exact ⟨c, rfl, h⟩

end release

end Core

end SandboxPredictor
