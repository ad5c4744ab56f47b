import SandboxPredictor.ChampSim.CoreScoreboard

/- Every run of the core.

   With the order of the instructions and the scoreboard kept by every call, no run
   reads a register before it is written, runs an instruction twice or gets stuck
   with what it has scheduled, whatever the caches and the predictor do and in
   whatever order the stages are called. -/
namespace SandboxPredictor

namespace CoreBuffer

variable {b : CoreBuffer 351} {x : OooModelInstr}

/-- An instruction put at the tail, in the columns. -/
theorem board_append (now : Nat) (hout : b.board.wait b.tail = {} ∧ b.board.links b.tail = {})
    (hw : x.wait = {}) (hl : x.links = {}) :
    (b.append now x).board = b.board.append b.tail x.arch x.fetched := by
  have hcolumn : ∀ {β : Type} (g : OooModelInstr → β),
      (fun k => g ((b.append now x).entry k))
        = Function.update (fun k => g (b.entry k)) b.tail (g { x with eventCycle := now }) := by
    intro β g
    funext k
    by_cases hk : k = b.tail
    · subst hk
      simp [entry_append]
    · simp [entry_append, hk]
  have hwait : Function.update (fun k => (b.entry k).wait) b.tail x.wait
      = fun k => (b.entry k).wait := by
    rw [hw, ← hout.1]
    exact Function.update_eq_self b.tail fun k => (b.entry k).wait
  have hlinks : Function.update (fun k => (b.entry k).links) b.tail x.links
      = fun k => (b.entry k).links := by
    rw [hl, ← hout.2]
    exact Function.update_eq_self b.tail fun k => (b.entry k).links
  simp only [board, hcolumn OooModelInstr.arch, hcolumn OooModelInstr.fetched,
    hcolumn OooModelInstr.wait, hcolumn OooModelInstr.links]
  exact congrArg₂ (fun w l => ({ Board.append b.board b.tail x.arch x.fetched with
    wait := w, links := l } : Board)) hwait hlinks

theorem board_drop (b : CoreBuffer 351) :
    b.drop.board = b.board.drop OooModelInstr.empty.arch := by
  have hcolumn : ∀ {β : Type} (g : OooModelInstr → β),
      (fun k => g (b.drop.entry k))
        = Function.update (fun k => g (b.entry k)) b.head (g OooModelInstr.empty) := by
    intro β g
    funext k
    by_cases hk : k = b.head
    · subst hk
      simp [entry_drop]
    · simp [entry_drop, hk]
  simp only [board, hcolumn]
  rfl

end CoreBuffer

namespace Core

variable {σ ρ : Type} {cfg : CoreConfig ρ} {now : Nat} {warm : Bool} {c c' : Core σ}
  {i : RobIndex} {r : RobIndex → Nat}

/-! ## Reading and fetching -/

section front

variable [Predictor σ ρ]

theorem Sane.ifetch_modify (h : c.Sane) {k : Fin (11 + 1)} {f : OooModelInstr → OooModelInstr}
    (hf : ∀ x, (f x).state = x.state) :
    ({ c with IFETCH_BUFFER := c.IFETCH_BUFFER.modify k f } : Core σ).Sane :=
  ⟨h.board, h.queued, h.ifetch.modify hf, h.decode⟩

theorem Sane.predictBranch (h : c.Sane) (k : Fin (11 + 1)) (x : OooModelInstr) :
    (c.predictBranch cfg warm k x).2.Sane := by
  unfold Core.predictBranch
  dsimp only
  split_ifs
  · exact (h.ifetch_modify (by intro _; rfl)).congr rfl
  · exact h.congr rfl
  · exact h.congr rfl

theorem new_archInstr (instrId : Nat) (current next : InputInstr) :
    (current.archInstr instrId next).New := by
  refine ⟨rfl, rfl, ?_, Int.natCast_nonneg _⟩
  exact decide_eq_decide.2 Int.natCast_pos.symm

theorem Sane.readInstr {res : Bool × Core σ} (h : c.Sane)
    (hread : c.readInstr cfg warm now = some res) : res.2.Sane := by
  unfold Core.readInstr at hread
  extract_lets traceReadInstr current x at hread
  obtain ⟨buffer, hadd, rfl⟩ := Option.map_eq_some_iff.1 hread
  have hbuffer : buffer.Fresh := by
    unfold CoreBuffer.addToIfetchBuffer CoreBuffer.push at hadd
    split at hadd
    · cases hadd
    · obtain rfl := Option.some.inj hadd
      have hx : ({ x with translated := COMPLETED, fetched := 0 } : OooModelInstr).New :=
        (new_archInstr c.instrUniqueId current traceReadInstr).congr rfl
      exact h.ifetch.append hx now
  have h₁ : ({ c with IFETCH_BUFFER := buffer } : Core σ).Sane :=
    ⟨h.board, h.queued, hbuffer, h.decode⟩
  unfold Core.enter
  extract_lets c₁
  have hc₁ : c₁.Sane := h₁.congr rfl
  split
  · exact hc₁.predictBranch _ _
  · exact hc₁

theorem Sane.readLoop {reads : Nat} (h : c.Sane)
    (hread : c.readLoop cfg warm now reads = some c') : c'.Sane := by
  induction reads generalizing c with
  | zero =>
    obtain rfl := Option.some.inj hread
    exact h
  | succ reads ih =>
    obtain ⟨res, hone, hrest⟩ := Option.bind_eq_some_iff.1 hread
    have hres := h.readInstr hone
    dsimp only at hrest
    split at hrest
    · obtain rfl := Option.some.inj hrest
      exact hres
    · exact ih hres hrest

theorem Sane.readFromTrace (h : c.Sane) (hread : c.readFromTrace cfg warm now = some c') :
    c'.Sane := by
  unfold Core.readFromTrace at hread
  split at hread
  · exact h.readLoop hread
  · obtain rfl := Option.some.inj hread
    exact h

end front

theorem fresh_requestLine {n : Nat} {b : CoreBuffer n} (h : b.Fresh) (itlb l1i : Bool)
    (k : Fin (n + 1)) : (requestLine itlb l1i k b).Fresh := by
  unfold requestLine
  extract_lets ip b₁
  have h₁ : b₁.Fresh := by
    unfold b₁
    split
    · exact h.modifyAll (by intro _; rfl)
    · exact h
  split
  · exact h₁.modifyAll (by intro _; rfl)
  · exact h₁

theorem fresh_requestLoop {n : Nat} {b : CoreBuffer n} (h : b.Fresh)
    (itlb l1i : Fin (n + 1) → Bool) (l : List (Fin (n + 1))) :
    (requestLoop itlb l1i l b).Fresh := by
  induction l generalizing b with
  | nil => exact h
  | cons k l ih =>
    unfold requestLoop
    split
    · exact h
    · exact ih (fresh_requestLine h _ _ k)

theorem fresh_decodeLoop {n : Nat} {b : CoreBuffer n} (h : b.Fresh) (latency k : Nat)
    (j : Fin (n + 1)) (count : Nat) : (decodeLoop now latency k j count b).Fresh := by
  induction k generalizing j count b with
  | zero => exact h
  | succ k ih =>
    unfold decodeLoop
    split
    · exact h
    · extract_lets isNew b' newCount
      have h' : b'.Fresh := by
        unfold b'
        split
        · exact h.modify (by intro _; rfl)
        · exact h
      split
      · exact h'
      · exact ih h' _ _

theorem Sane.sendLoop {k : Nat} (h : c.Sane) (hsend : c.sendLoop now k = some c') : c'.Sane := by
  induction k generalizing c with
  | zero =>
    obtain rfl := Option.some.inj hsend
    exact h
  | succ k ih =>
    unfold Core.sendLoop at hsend
    extract_lets x at hsend
    split_ifs at hsend
    · obtain rfl := Option.some.inj hsend
      exact h
    · obtain ⟨buffer, hadd, hrest⟩ := Option.bind_eq_some_iff.1 hsend
      have hbuffer : buffer.Fresh := by
        unfold CoreBuffer.addToDecodeBuffer CoreBuffer.push at hadd
        split at hadd
        · cases hadd
        · obtain rfl := Option.some.inj hadd
          exact h.decode.append (h.ifetch c.IFETCH_BUFFER.head) now
      have hdecode : (buffer.modify c.DECODE_BUFFER.tail ({ · with eventCycle := 0 })).Fresh :=
        hbuffer.modify (by intro _; rfl)
      refine ih ?_ hrest
      exact ⟨h.board, h.queued, h.ifetch.drop, hdecode⟩
    · obtain rfl := Option.some.inj hsend
      exact h
    · exact ih h hsend

theorem Sane.fetchInstruction {itlb l1i : Fin (11 + 1) → Bool} (h : c.Sane)
    (hfetch : c.fetchInstruction now itlb l1i = some c') : c'.Sane := by
  unfold Core.fetchInstruction at hfetch
  extract_lets c₁ places at hfetch
  have h₁ : c₁.Sane := by
    unfold c₁
    split
    · exact h.congr rfl
    · exact h
  split at hfetch
  · obtain rfl := Option.some.inj hfetch
    exact h₁
  · refine Sane.sendLoop ?_ hfetch
    exact ⟨h₁.board, h₁.queued, fresh_requestLoop h₁.ifetch _ _ _, h₁.decode⟩

theorem Sane.completeInstrFetch (h : c.Sane) (isItTlb : Bool) (ip : Word) :
    (c.completeInstrFetch isItTlb ip).Sane := by
  refine ⟨h.board, h.queued, ?_, h.decode⟩
  show CoreBuffer.Fresh (if isItTlb then _ else _)
  split
  · exact h.ifetch.modifyAll (by intro _; rfl)
  · exact h.ifetch.modifyAll (by intro _; rfl)

/-! ## Dispatch and retirement -/

section ends

variable [Predictor σ ρ] {p : σ} {done : List Arch}

theorem InOrder.age_tail (h : InOrder cfg p done c) (hroom : c.ROB.occupancy < 352) :
    c.ROB.board.age c.ROB.tail = c.ROB.occupancy := by
  obtain ⟨R, D, F, hflow⟩ := h.flow
  have hocc : c.ROB.occupancy = R.length := hflow.rob.occupancy
  have htail : c.ROB.tail = Ring.cell c.ROB.head R.length := hflow.rob.ring.tail_eq
  rw [htail, hocc]
  exact Ring.age_cell c.ROB.head (hocc ▸ hroom)

theorem InOrder.fits (h : InOrder cfg p done c) : c.ROB.occupancy ≤ 352 := by
  obtain ⟨R, D, F, hflow⟩ := h.flow
  exact hflow.rob.occupancy.trans_le hflow.rob.ring.fits

/-- The oldest instruction of the decode buffer moves to the reorder buffer. -/
theorem Sane.dispatch (now : Nat) (h : c.Sane) (ho : InOrder cfg p done c) (hroom : c.ROB.occupancy < 352) :
    ({ c with
      ROB := c.ROB.append now (c.DECODE_BUFFER.entry c.DECODE_BUFFER.head)
      DECODE_BUFFER := c.DECODE_BUFFER.drop } : Core σ).Sane := by
  have hage := ho.age_tail hroom
  have hout : ¬ c.ROB.board.In c.ROB.tail := fun hin => lt_irrefl _ (hin.trans_eq hage.symm)
  have hblank := h.board.blank _ hout
  have hx := h.decode c.DECODE_BUFFER.head
  have hboard := CoreBuffer.board_append now ⟨hblank.1, hblank.2.1⟩ hx.wait hx.links
  refine ⟨?_, ?_, h.ifetch, h.decode.drop⟩
  · rw [hboard]
    exact h.settled.append hage
  · rw [hboard]
    refine h.queued.congr ?_
    intro k
    by_cases hk : k = c.ROB.tail
    · subst hk
      have hidle : (c.ROB.board.wait c.ROB.tail).regReady = false := by rw [hblank.1]
      refine iff_of_false ?_ ?_
      · rintro ⟨-, hready, -⟩
        exact Bool.false_ne_true (hidle.symm.trans hready)
      · rintro ⟨-, hready, -⟩
        exact Bool.false_ne_true (hidle.symm.trans hready)
    · simp [Board.Ready, Board.append, hk]

theorem Sane.dispatchLoop {k count : Nat} (h : c.Sane) (ho : InOrder cfg p done c)
    (hdo : c.dispatchLoop now warm k count = some c') : c'.Sane := by
  induction k generalizing c count with
  | zero =>
    obtain rfl := Option.some.inj hdo
    exact h
  | succ k ih =>
    unfold Core.dispatchLoop at hdo
    extract_lets x at hdo
    split at hdo
    · obtain rfl := Option.some.inj hdo
      exact h
    · next hip =>
      split at hdo
      · next hready =>
        have hroom : c.ROB.occupancy < 352 := by
          rcases hready with ⟨-, hroom⟩ | ⟨-, -, hroom⟩
          · exact hroom
          · exact hroom
        obtain ⟨hadd, hmoved⟩ := ho.dispatch now hip hroom
        have hsane := h.dispatch now ho hroom
        rw [hadd, Option.bind_some] at hdo
        dsimp only at hdo
        split at hdo
        · obtain rfl := Option.some.inj hdo
          exact hsane
        · exact ih hsane hmoved hdo
      · obtain rfl := Option.some.inj hdo
        exact h

theorem Sane.decodeAndDispatch (h : c.Sane) (ho : InOrder cfg p done c)
    (hdo : c.decodeAndDispatch now cfg warm = some c') : c'.Sane := by
  obtain ⟨c₁, hloop, rfl⟩ := Option.map_eq_some_iff.1 hdo
  have h₁ := h.dispatchLoop ho hloop
  exact ⟨h₁.board, h₁.queued, h₁.ifetch, fresh_decodeLoop h₁.decode _ _ _ _⟩

/-- The oldest instruction is complete and retires. -/
theorem Sane.retire (h : c.Sane) (ho : InOrder cfg p done c)
    (hdone : (c.ROB.entry c.ROB.head).executed = COMPLETED) :
    ({ c with ROB := c.ROB.drop } : Core σ).Sane := by
  have hdone' : c.ROB.board.Done c.ROB.board.head := hdone
  have hstarted : (c.ROB.board.wait c.ROB.head).executed ≠ 0 := by
    rw [show (c.ROB.board.wait c.ROB.head).executed = COMPLETED from hdone]
    decide
  have hin : c.ROB.board.In c.ROB.head :=
    h.board.inROB_of_regReady ((h.board.consistent _).started hstarted)
  have hpos : 0 < c.ROB.occupancy := (Nat.zero_le _).trans_lt hin
  refine ⟨?_, ?_, h.ifetch, h.decode⟩
  · rw [CoreBuffer.board_drop]
    exact h.settled.drop hdone' hpos ho.fits
  · rw [CoreBuffer.board_drop]
    refine h.queued.congr ?_
    intro k
    by_cases hk : k = c.ROB.board.head
    · subst hk
      refine iff_of_false ?_ ?_
      · rintro ⟨-, hready, -⟩
        rw [Board.drop_head.1] at hready
        cases hready
      · rintro ⟨-, -, hexec⟩
        exact hstarted hexec
    · obtain ⟨hwait, -, harch, -⟩ := Board.drop_ne (a := OooModelInstr.empty.arch) hk
      rw [Board.Ready, Board.Ready, hwait, harch]

theorem Sane.retireLoop {room : Nat → Bool} (k : Nat) (h : c.Sane) (ho : InOrder cfg p done c) :
    (c.retireLoop room k).2.Sane := by
  induction k generalizing c done with
  | zero => exact h
  | succ k ih =>
    unfold Core.retireLoop
    extract_lets x
    split_ifs with hip hexec hstore
    · exact h
    · exact h
    · exact h
    · exact ih ((h.retire ho (not_not.1 hexec)).congr rfl) (ho.retire hip)

end ends

/-! ## Memory instructions -/

theorem Sane.doMemoryScheduling (h : c.Sane) (i : RobIndex) : (c.doMemoryScheduling i).Sane := by
  unfold Core.doMemoryScheduling
  extract_lets x
  split
  · next hgo =>
    obtain ⟨hm, hready, hsched⟩ := hgo
    have hm' : (c.ROB.board.arch i).isMemory = true := hm
    have hready' : (c.ROB.board.wait i).regReady = true := hready
    have hsched' : (c.ROB.board.wait i).scheduled = INFLIGHT := hsched
    have hcons := h.board.consistent i
    have hexec : (c.ROB.board.wait i).executed = 0 := by
      rcases hcons.memory hm' (hcons.scheduled hready') with ⟨-, hexec⟩ | ⟨hcompleted, -⟩
      · exact hexec
      · rw [hsched'] at hcompleted
        exact absurd hcompleted (by decide)
    have hexec' : x.executed = 0 := hexec
    rw [if_pos hexec']
    have hboard : (c.ROB.modify i ({ · with scheduled := COMPLETED, executed := INFLIGHT })).board
        = c.ROB.board.setWait i { c.ROB.board.wait i with
            scheduled := COMPLETED, executed := INFLIGHT } :=
      CoreBuffer.board_modify (by intro _; rfl) (by intro _; rfl) (by intro _; rfl)
    refine ⟨?_, ?_, h.ifetch, h.decode⟩
    · rw [hboard]
      refine h.board.setWait (h.board.inROB_of_regReady hready') ?_ ?_ (h.board.count i)
        (fun _ _ => rfl) ?_
      · rw [Board.Done, hexec]
        exact iff_of_false (show INFLIGHT ≠ COMPLETED by decide) (by decide)
      · exact iff_of_true (show COMPLETED ≠ 0 by decide) (hcons.scheduled hready')
      · refine ⟨fun h0 => absurd h0 (show COMPLETED ≠ 0 by decide),
          fun _ => hcons.ready (hcons.scheduled hready'), fun _ => hready', ?_, fun _ _ => rfl,
          Or.inr (Or.inl rfl)⟩
        intro _ _
        exact Or.inr ⟨rfl, show INFLIGHT ≠ 0 by decide⟩
    · refine Board.Only.queued (hboard ▸ Board.Only.setWait _ _ _) h.queued ?_ ?_
      · simp [Board.Ready, hm']
      · rw [hboard]
        simp [Board.Ready, hm']
  · exact h

/-- A change that no column shows. -/
theorem Sane.modify {f : OooModelInstr → OooModelInstr} (h : c.Sane)
    (hfetched : ∀ x, (f x).fetched = x.fetched) (harch : ∀ x, (f x).arch = x.arch)
    (hwait : ∀ x, (f x).wait = x.wait) (hlinks : ∀ x, (f x).links = x.links) :
    ({ c with ROB := c.ROB.modify i f } : Core σ).Sane := by
  have hboard : (c.ROB.modify i f).board = c.ROB.board := by
    rw [CoreBuffer.board_modify hfetched harch hlinks, hwait]
    exact congrArg (fun w => ({ c.ROB.board with wait := w } : Board))
      (Function.update_eq_self i c.ROB.board.wait)
  refine ⟨?_, ?_, h.ifetch, h.decode⟩
  · rw [hboard]
    exact h.board
  · rw [hboard]
    exact h.queued

theorem Sane.memOpDone {cycle : Nat} (h : c.Sane) (hdo : c.memOpDone i cycle = some c') :
    c'.Sane := by
  unfold Core.memOpDone at hdo
  extract_lets numMemOps at hdo
  split at hdo
  · cases hdo
  · obtain rfl := Option.some.inj hdo
    exact (h.modify (i := i)
      (f := fun x => { x with numMemOps := numMemOps, eventCycle := cycle })
      (by intro _; rfl) (by intro _; rfl) (by intro _; rfl) (by intro _; rfl)).congr rfl

/-! ## Every run -/

section run

variable [Predictor σ ρ] {p : σ} {done : List Arch}

theorem Sane.still {o : Option (Core σ)} (h : c.Sane) (ho : ∀ c', o = some c' → c'.Sane) :
    (step.still c o).2.Sane := by
  cases o with
  | none => exact h
  | some c' => exact ho c' rfl

/-- A call that is known to end well. -/
theorem Sane.still_of_exists {o : Option (Core σ)} (h : c.Sane)
    (ho : ∃ c', o = some c' ∧ c'.Sane) : (step.still c o).2.Sane := by
  obtain ⟨c₁, rfl, h₁⟩ := ho
  refine h.still ?_
  intro c' hc'
  exact (Option.some.inj hc') ▸ h₁

theorem Sane.step (h : c.Sane) (ho : InOrder cfg p done c) (op : CoreOp) :
    (c.step cfg op).2.Sane := by
  cases op with
  | readFromTrace warm now => exact h.still fun c' hc' => h.readFromTrace hc'
  | fetchInstruction itlb l1i now => exact h.still fun c' hc' => h.fetchInstruction hc'
  | completeInstrFetch isItTlb ip => exact h.completeInstrFetch isItTlb ip
  | decodeAndDispatch warm now => exact h.still fun c' hc' => h.decodeAndDispatch ho hc'
  | scheduleInstruction now => exact h.still_of_exists h.scheduleInstruction
  | executeInstruction now => exact h.executeInstruction
  | updateRob now => exact h.still_of_exists h.updateRob
  | doMemoryScheduling i => exact h.doMemoryScheduling i
  | memOpDone i cycle => exact h.still fun c' hc' => h.memOpDone hc'
  | setEventCycle i cycle =>
    exact h.modify (by intro _; rfl) (by intro _; rfl) (by intro _; rfl) (by intro _; rfl)
  | retireRob room => exact h.retireLoop RETIRE_WIDTH ho

theorem sane_init (p : σ) : ({ predictor := p } : Core σ).Sane := by
  have hedge : ∀ q k j, ¬ ({ predictor := p } : Core σ).ROB.board.Edge q k j := by
    intro q k j he
    cases he
  refine ⟨⟨fun k _ => ⟨rfl, rfl, rfl⟩, ?_, ?_, ?_, ?_, ?_, ?_, ?_, ?_⟩, ⟨[], [], ?_, ?_, ?_, ?_⟩, ?_, ?_⟩
  · exact fun q k j he => absurd he (hedge q k j)
  · intro q j v hv
    cases hv
  · intro q v
    refine iff_of_false (by intro hv; cases hv) ?_
    rintro ⟨k, j, -, he⟩
    exact hedge q k j he
  · exact fun q k j he => absurd he (hedge q k j)
  · intro k
    have hcard : (({ predictor := p } : Core σ).ROB.board.pending k).card = 0 :=
      WaitGraph.card_pending_eq_zero.2 fun q j he => absurd he (hedge q k j)
    rw [hcard]
    rfl
  · exact fun k => Wait.consistent_fresh _
  · exact fun k j q hs => absurd rfl hs
  · exact fun q k j he => absurd he (hedge q k j)
  · exact Ring.Clean.nil _ _
  · exact Ring.Clean.nil _ _
  · exact List.nodup_nil
  · intro k
    refine iff_of_false List.not_mem_nil ?_
    rintro ⟨-, hready, -⟩
    cases hready
  · exact fun k => ⟨rfl, rfl, rfl, le_refl _⟩
  · exact fun k => ⟨rfl, rfl, rfl, le_refl _⟩

theorem Sane.run (h : c.Sane) (ho : InOrder cfg p done c) (ops : List CoreOp) :
    (Mealy.run (Core.step cfg) c ops).Sane := by
  induction ops generalizing done c with
  | nil => exact h
  | cons op ops ih => exact ih (h.step ho op) (ho.step op)

/-- The state after a run. -/
abbrev after (cfg : CoreConfig ρ) (p : σ) (ops : List CoreOp) : Core σ :=
  Mealy.run (Core.step cfg) { predictor := p } ops

theorem inOrder_after (cfg : CoreConfig ρ) (p : σ) (ops : List CoreOp) :
    ∃ done, InOrder cfg p done (after cfg p ops) :=
  ⟨_, (inOrder_init cfg p).run ops⟩

theorem sane_after (cfg : CoreConfig ρ) (p : σ) (ops : List CoreOp) : (after cfg p ops).Sane :=
  (sane_init p).run (inOrder_init cfg p) ops

/-- What an instruction reads has been written when it is started: of the older
instructions that write the register, the youngest is complete. -/
def ReadsWritten (c : Core σ) : Prop :=
  ∀ i j q, (c.ROB.entry i).executed ≠ 0 → (c.ROB.entry i).sourceRegisters j ≠ 0#8 →
    c.ROB.board.LastWriter i j q → (c.ROB.entry q).executed = COMPLETED

/-- An instruction that has been scheduled is ready when the older instructions that write
what it reads are complete; a ready one is in one of the arrays until it is started,
unless it is a memory instruction. -/
def NeverStuck (c : Core σ) : Prop :=
  ∀ i, (c.ROB.entry i).scheduled ≠ 0 →
    (∀ q j, c.ROB.board.Older q i →
      (c.ROB.entry q).arch.writes ((c.ROB.entry i).sourceRegisters j) = true →
      (c.ROB.entry q).executed = COMPLETED) →
    (c.ROB.entry i).regReady = true ∧
      ((c.ROB.entry i).isMemory = false → (c.ROB.entry i).executed = 0 →
        ∃ k, c.RTE0.entry k = some i ∨ c.RTE1.entry k = some i)

/-- **Read after write.** In every run of the core no instruction is started before the
registers it reads are written. -/
theorem reads_written (cfg : CoreConfig ρ) (p : σ) (ops : List CoreOp) :
    (after cfg p ops).ReadsWritten :=
  fun _ _ _ hi hsrc hlast => (sane_after cfg p ops).settled.lastWriter_done hi hsrc hlast

/-- **Each instruction is executed once.** In every run of the core the two Ready-To-Execute
arrays together hold each non-memory instruction that is ready and not started once, and
nothing else. -/
theorem ready_once (cfg : CoreConfig ρ) (p : σ) (ops : List CoreOp) :
    Queued (after cfg p ops).RTE0 (after cfg p ops).RTE1 fun i =>
      let x := (after cfg p ops).ROB.entry i
      x.isMemory = false ∧ x.regReady = true ∧ x.executed = 0 :=
  (sane_after cfg p ops).queued

/-- **No assertion fails** in any run of the core, but the one on the number of memory
operations, when the memory system reports more of them than there are. -/
theorem assertion_fails_iff (cfg : CoreConfig ρ) (p : σ) (ops : List CoreOp) (op : CoreOp) :
    ((after cfg p ops).step cfg op).1 = none ↔
      ∃ i cycle, op = .memOpDone i cycle ∧ ((after cfg p ops).ROB.entry i).numMemOps ≤ 0 := by
  obtain ⟨done, ho⟩ := inOrder_after cfg p ops
  have h := sane_after cfg p ops
  generalize after cfg p ops = c at ho h
  have hstill : ∀ {o : Option (Core σ)}, (∃ c', o = some c' ∧ c'.Sane) →
      (step.still c o).1 ≠ none := by
    rintro o ⟨c', rfl, -⟩
    simp [step.still]
  have hmoves : ∀ {o : Option (Core σ)}, (∃ c', o = some c' ∧ InOrder cfg p done c') →
      (step.still c o).1 ≠ none := by
    rintro o ⟨c', rfl, -⟩
    simp [step.still]
  cases op with
  | readFromTrace warm now => exact iff_of_false (hmoves ho.readFromTrace) (by simp)
  | fetchInstruction itlb l1i now =>
    exact iff_of_false (hmoves (ho.fetchInstruction itlb l1i)) (by simp)
  | completeInstrFetch isItTlb ip => simp [Core.step]
  | decodeAndDispatch warm now => exact iff_of_false (hmoves ho.decodeAndDispatch) (by simp)
  | scheduleInstruction now => exact iff_of_false (hstill h.scheduleInstruction) (by simp)
  | executeInstruction now => simp [Core.step]
  | updateRob now => exact iff_of_false (hstill h.updateRob) (by simp)
  | doMemoryScheduling i => simp [Core.step]
  | memOpDone i cycle =>
    simp only [Core.step, memOpDone, CoreOp.memOpDone.injEq]
    split
    · next hneg => exact iff_of_true rfl ⟨i, cycle, ⟨rfl, rfl⟩, by omega⟩
    · next hpos =>
      refine iff_of_false (by simp [step.still]) ?_
      rintro ⟨i', cycle', ⟨rfl, rfl⟩, hle⟩
      omega
  | setEventCycle i cycle => simp [Core.step]
  | retireRob room => simp [Core.step]

/-- **Nothing gets stuck.** In every run of the core a scheduled instruction whose producers
are complete can be executed. -/
theorem never_stuck (cfg : CoreConfig ρ) (p : σ) (ops : List CoreOp) :
    (after cfg p ops).NeverStuck := by
  intro i hsched hdone
  have h := sane_after cfg p ops
  have hready := h.settled.ready_of_writers_done hsched hdone
  refine ⟨hready, ?_⟩
  intro hm hexec
  obtain ⟨L₀, L₁, h₀, h₁, -, hmem⟩ := h.queued.lists
  have hin : i ∈ L₀ ++ L₁ := (hmem i).2 ⟨hm, hready, hexec⟩
  rcases List.mem_append.1 hin with hi | hi
  · obtain ⟨k, hk⟩ := h₀.exists_cell (List.mem_map_of_mem hi)
    exact ⟨k, Or.inl hk⟩
  · obtain ⟨k, hk⟩ := h₁.exists_cell (List.mem_map_of_mem hi)
    exact ⟨k, Or.inr hk⟩

end run

end Core

end SandboxPredictor
