import SandboxPredictor.ChampSim.CoreOrder
import SandboxPredictor.Lib.WaitGraph

/- The reorder buffer as a scoreboard: which instruction waits for which.

   An instruction that is scheduled is told, for each register it reads, to wait for
   the youngest older instruction that writes it and is not complete. What it keeps
   of this is a number; the instructions it waits for keep it in their sets. `Sound`
   says that the numbers and the sets fit, and that what has been started waits for
   nothing. -/
namespace SandboxPredictor

/-- How far an instruction has come. -/
structure Wait where
  scheduled : Nat := 0
  executed : Nat := 0
  regReady : Bool := false
  numRegDependent : Int := 0
  regRAWChecked : Fin NUM_INSTR_SOURCES → Bool := fun _ => false

/-- Which instructions wait for an instruction. -/
structure Links where
  regRAWProducer : Bool := false
  instrs : FastSet := FastSet.empty
  index : Fin NUM_INSTR_SOURCES → FastSet := fun _ => FastSet.empty

def OooModelInstr.wait (x : OooModelInstr) : Wait :=
  ⟨x.scheduled, x.executed, x.regReady, x.numRegDependent, x.regRAWChecked⟩

def OooModelInstr.links (x : OooModelInstr) : Links :=
  ⟨x.regRAWProducer, x.registersInstrsDependOnMe, x.registersIndexDependOnMe⟩

/-- The reorder buffer by columns. -/
structure Board where
  head : RobIndex
  occupancy : Nat
  arch : RobIndex → Arch
  fetched : RobIndex → Nat
  wait : RobIndex → Wait
  links : RobIndex → Links

def CoreBuffer.board (b : CoreBuffer 351) : Board where
  head := b.head
  occupancy := b.occupancy
  arch i := (b.entry i).arch
  fetched i := (b.entry i).fetched
  wait i := (b.entry i).wait
  links i := (b.entry i).links

theorem asMember_inj {i k : RobIndex} (h : asMember i = asMember k) : i = k :=
  Fin.castLE_injective _ h

theorem asMember_lt (i : RobIndex) : (asMember i).val < 352 := i.isLt

@[simp] theorem ofMember_asMember (i : RobIndex) : ofMember (asMember i) = i := by
  apply Fin.ext
  simp only [ofMember, Ring.cell, Ring.first_eq, asMember, Fin.val_castLE, Fin.val_zero,
    Nat.zero_add]
  exact Nat.mod_eq_of_lt i.isLt

/-- The states that an instruction can be in. -/
structure Wait.Consistent (x : Wait) (isMemory : Bool) : Prop where
  fresh : x.scheduled = 0 →
    x.executed = 0 ∧ x.regReady = false ∧ x.regRAWChecked = fun _ => false
  ready : x.scheduled ≠ 0 → (x.regReady = true ↔ x.numRegDependent = 0)
  started : x.executed ≠ 0 → x.regReady = true
  memory : isMemory = true → x.scheduled ≠ 0 →
    (x.scheduled = INFLIGHT ∧ x.executed = 0) ∨ (x.scheduled = COMPLETED ∧ x.executed ≠ 0)
  other : isMemory = false → x.scheduled ≠ 0 → x.scheduled = COMPLETED
  executed : x.executed = 0 ∨ x.executed = INFLIGHT ∨ x.executed = COMPLETED

theorem Wait.consistent_fresh (isMemory : Bool) : ({} : Wait).Consistent isMemory := by
  constructor <;> simp

theorem Wait.Consistent.scheduled {x : Wait} {isMemory : Bool} (h : x.Consistent isMemory)
    (hready : x.regReady = true) : x.scheduled ≠ 0 := by
  intro h0
  rw [(h.fresh h0).2.1] at hready
  cases hready

/-- An instruction whose last producer is complete may go on. -/
theorem Wait.Consistent.woken {x : Wait} (isMemory : Bool) {n : Int} (hx : x.executed = 0)
    (hn : n = 0) :
    ({ x with
      numRegDependent := n, regReady := true
      scheduled := if isMemory then INFLIGHT else COMPLETED } : Wait).Consistent isMemory := by
  have hsched : (if isMemory then INFLIGHT else COMPLETED) ≠ 0 := by
    split
    · decide
    · decide
  refine ⟨fun h0 => absurd h0 hsched, fun _ => iff_of_true rfl hn, fun _ => rfl, ?_, ?_, Or.inl hx⟩
  · intro hm _
    exact Or.inl ⟨if_pos hm, hx⟩
  · intro hm _
    exact if_neg (by simp [hm])

namespace Board

/-- How many places after the head. -/
def age (B : Board) (i : RobIndex) : Nat := Ring.age B.head i

/-- The place is in use. -/
def In (B : Board) (i : RobIndex) : Prop := B.age i < B.occupancy

def Older (B : Board) (p i : RobIndex) : Prop := B.age p < B.age i

/-- The instruction `i` was told to wait for `p`, for its source `j`. -/
def Edge (B : Board) (p i : RobIndex) (j : Fin NUM_INSTR_SOURCES) : Prop :=
  asMember i ∈ ((B.links p).index j).toFinset

def Done (B : Board) (p : RobIndex) : Prop := (B.wait p).executed = COMPLETED

/-- What the instruction `i` still waits for. -/
noncomputable def pending (B : Board) (i : RobIndex) : Finset (RobIndex × Fin NUM_INSTR_SOURCES) :=
  WaitGraph.pending B.Edge B.Done i

/-- The youngest instruction with the property among those older than `i`. -/
def Youngest (B : Board) (i : RobIndex) (P : RobIndex → Prop) (p : RobIndex) : Prop :=
  B.Older p i ∧ P p ∧ ∀ q, B.Older q i → P q → B.age q ≤ B.age p

def source (B : Board) (i : RobIndex) (j : Fin NUM_INSTR_SOURCES) : BitVec 8 :=
  (B.arch i).sourceRegisters j

/-- The instruction whose result the source `j` of `i` is. -/
def LastWriter (B : Board) (i : RobIndex) (j : Fin NUM_INSTR_SOURCES) (p : RobIndex) : Prop :=
  B.Youngest i (fun q => (B.arch q).writes (B.source i j) = true) p

/-- A non-memory instruction that may be executed. -/
def Ready (B : Board) (i : RobIndex) : Prop :=
  (B.arch i).isMemory = false ∧ (B.wait i).regReady = true ∧ (B.wait i).executed = 0

/-- The numbers and the sets fit; `r i` of those that the instruction `i` waits for are
complete but have not been counted off yet. -/
structure Sound (B : Board) (r : RobIndex → Nat) : Prop where
  blank : ∀ i, ¬ B.In i → B.wait i = {} ∧ B.links i = {} ∧ B.fetched i = 0
  older : ∀ p i j, B.Edge p i j → B.Older p i ∧ B.In i ∧ (B.wait i).scheduled ≠ 0
  member : ∀ p j v, v ∈ ((B.links p).index j).toFinset → ∃ i, v = asMember i
  instrs : ∀ p v, v ∈ (B.links p).instrs.toFinset ↔ ∃ i j, v = asMember i ∧ B.Edge p i j
  producer : ∀ p i j, B.Edge p i j → (B.links p).regRAWProducer = true
  count : ∀ i, (B.wait i).numRegDependent = (B.pending i).card + r i
  consistent : ∀ i, (B.wait i).Consistent (B.arch i).isMemory
  raw : ∀ i j p, (B.wait i).scheduled ≠ 0 → B.source i j ≠ 0#8 → B.LastWriter i j p →
    ¬ B.Done p → B.Edge p i j
  writes : ∀ p i j, B.Edge p i j → (B.arch p).writes (B.source i j) = true

/-- Nothing is left to be counted off. -/
abbrev Settled (B : Board) : Prop := B.Sound fun _ => 0

/-- An instruction goes on. -/
def setWait (B : Board) (i : RobIndex) (x : Wait) : Board :=
  { B with wait := Function.update B.wait i x }

variable {B B' : Board} {r r' : RobIndex → Nat} {i p : RobIndex}

section setWait

variable {x : Wait}

@[simp] theorem setWait_head : (B.setWait i x).head = B.head := rfl

@[simp] theorem setWait_occupancy : (B.setWait i x).occupancy = B.occupancy := rfl

@[simp] theorem setWait_arch : (B.setWait i x).arch = B.arch := rfl

@[simp] theorem setWait_fetched : (B.setWait i x).fetched = B.fetched := rfl

@[simp] theorem setWait_links : (B.setWait i x).links = B.links := rfl

@[simp] theorem setWait_wait : (B.setWait i x).wait = Function.update B.wait i x := rfl

theorem setWait_self : (B.setWait i x).wait i = x := Function.update_self _ _ _

theorem setWait_setWait {y : Wait} : (B.setWait i x).setWait i y = B.setWait i y := by
  simp [setWait]

theorem setWait_ne {k : RobIndex} (hk : k ≠ i) : (B.setWait i x).wait k = B.wait k :=
  Function.update_of_ne hk _ _

end setWait

theorem Older.inROB (h : B.Older p i) (hi : B.In i) : B.In p := lt_trans h hi

theorem Sound.inROB_of_scheduled (h : B.Sound r) (hi : (B.wait i).scheduled ≠ 0) : B.In i := by
  by_contra hout
  exact hi (by rw [(h.blank i hout).1])

theorem Sound.inROB_of_regReady (h : B.Sound r) (hi : (B.wait i).regReady = true) : B.In i :=
  h.inROB_of_scheduled ((h.consistent i).scheduled hi)

theorem pending_congr (hedge : ∀ q j, B'.Edge q i j ↔ B.Edge q i j)
    (hdone : ∀ q, B'.Done q ↔ B.Done q) : B'.pending i = B.pending i :=
  WaitGraph.pending_congr fun q j => by rw [hedge, hdone]

/-- An instruction that has been started waits for nothing. -/
theorem Settled.done_of_started (h : B.Settled) (hi : (B.wait i).executed ≠ 0)
    {j : Fin NUM_INSTR_SOURCES} (he : B.Edge p i j) : B.Done p := by
  have hready := (h.consistent i).started hi
  have hcount := ((h.consistent i).ready ((h.consistent i).scheduled hready)).1 hready
  rw [h.count i, Nat.cast_zero, add_zero, Nat.cast_eq_zero] at hcount
  exact WaitGraph.card_pending_eq_zero.1 hcount p j he

/-- An instruction that is scheduled is ready once all older ones that write what it reads are
complete. -/
theorem Settled.ready_of_writers_done (h : B.Settled) (hi : (B.wait i).scheduled ≠ 0)
    (hold : ∀ q j, B.Older q i → (B.arch q).writes (B.source i j) = true → B.Done q) :
    (B.wait i).regReady = true := by
  refine ((h.consistent i).ready hi).2 ?_
  have hcard : (B.pending i).card = 0 :=
    WaitGraph.card_pending_eq_zero.2 fun q j he =>
      hold q j (h.older q i j he).1 (h.writes q i j he)
  rw [h.count i, hcard]
  rfl

/-- When an instruction has been started, what it reads has been written. -/
theorem Settled.lastWriter_done (h : B.Settled) (hi : (B.wait i).executed ≠ 0)
    {j : Fin NUM_INSTR_SOURCES} (hsrc : B.source i j ≠ 0#8) (hlast : B.LastWriter i j p) :
    B.Done p := by
  have hsched := (h.consistent i).scheduled ((h.consistent i).started hi)
  by_contra hnot
  exact hnot (h.done_of_started hi (h.raw i j p hsched hsrc hlast hnot))

/-! ## Changes of one instruction -/

section change

variable {x : Wait}

theorem done_setWait (q : RobIndex) :
    (B.setWait i x).Done q ↔ if q = i then x.executed = COMPLETED else B.Done q := by
  by_cases hq : q = i
  · subst hq
    simp [Done]
  · simp [Done, hq]

/-- An instruction goes on, without becoming complete. -/
theorem Sound.setWait (h : B.Sound r) (hin : B.In i)
    (hdone : x.executed = COMPLETED ↔ B.Done i)
    (hsched : x.scheduled ≠ 0 ↔ (B.wait i).scheduled ≠ 0)
    (hcount : x.numRegDependent = (B.pending i).card + r' i) (hr : ∀ k, k ≠ i → r' k = r k)
    (hx : x.Consistent (B.arch i).isMemory) :
    (B.setWait i x).Sound r' := by
  have hdone' : ∀ q, (B.setWait i x).Done q ↔ B.Done q := by
    intro q
    rw [done_setWait]
    split
    · next hq => rw [hq, hdone]
    · rfl
  have hsched' : ∀ k, (Function.update B.wait i x k).scheduled ≠ 0 ↔ (B.wait k).scheduled ≠ 0 := by
    intro k
    by_cases hk : k = i
    · subst hk
      simpa using hsched
    · simp [hk]
  have hpending : ∀ k, (B.setWait i x).pending k
      = B.pending k := fun k => pending_congr (fun _ _ => Iff.rfl) hdone'
  refine ⟨?_, ?_, h.member, h.instrs, h.producer, ?_, ?_, ?_, h.writes⟩
  · intro k hk
    have hne : k ≠ i := fun he => hk (he ▸ hin)
    rw [setWait_ne hne]
    exact h.blank k hk
  · intro q k j he
    obtain ⟨hold, hk, hs⟩ := h.older q k j he
    exact ⟨hold, hk, (hsched' k).2 hs⟩
  · intro k
    rw [hpending]
    by_cases hk : k = i
    · subst hk
      rw [setWait_self]
      exact hcount
    · rw [setWait_ne hk, hr k hk]
      exact h.count k
  · intro k
    by_cases hk : k = i
    · subst hk
      rw [setWait_self]
      exact hx
    · rw [setWait_ne hk]
      exact h.consistent k
  · intro k j q hs hsrc hlast hq
    exact h.raw k j q ((hsched' k).1 hs) hsrc hlast fun hd => hq ((hdone' q).2 hd)

open Classical in
/-- An instruction becomes complete: those that wait for it are yet to be told. -/
theorem Settled.finish (h : B.Settled) (hp : (B.wait p).executed = INFLIGHT) :
    (B.setWait p { B.wait p with executed := COMPLETED }).Sound
        fun i => (Finset.univ.filter (B.Edge p i)).card := by
  have hnot : ¬ B.Done p := by
    rw [Done, hp]
    decide
  have hne : (B.wait p).executed ≠ 0 := by
    rw [hp]
    decide
  have hready := (h.consistent p).started hne
  have hsched := (h.consistent p).scheduled hready
  have hin : B.In p := h.inROB_of_scheduled hsched
  have hdone : ∀ q, (B.setWait p { B.wait p with executed := COMPLETED }).Done q
        ↔ B.Done q ∨ q = p := by
    intro q
    rw [done_setWait]
    split
    · next hq => simp [hq]
    · next hq => simp [hq]
  have hsched' : ∀ k, (Function.update B.wait p
      { B.wait p with executed := COMPLETED } k).scheduled = (B.wait k).scheduled := by
    intro k
    by_cases hk : k = p
    · subst hk
      simp
    · simp [hk]
  refine ⟨?_, ?_, h.member, h.instrs, h.producer, ?_, ?_, ?_, h.writes⟩
  · intro k hk
    have hkp : k ≠ p := fun he => hk (he ▸ hin)
    rw [setWait_ne hkp]
    exact h.blank k hk
  · intro q k j he
    obtain ⟨hold, hk, hs⟩ := h.older q k j he
    exact ⟨hold, hk, (hsched' k).symm ▸ hs⟩
  · intro k
    have hcard := WaitGraph.card_pending_finish B.Edge k hnot hdone
    have hnum : (Function.update B.wait p { B.wait p with executed := COMPLETED } k).numRegDependent
        = (B.wait k).numRegDependent := by
      by_cases hk : k = p
      · subst hk
        simp
      · simp [hk]
    have hcount := h.count k
    rw [pending, hcard, Nat.cast_zero, add_zero, Nat.cast_add] at hcount
    exact hnum.trans hcount
  · intro k
    by_cases hk : k = p
    · subst hk
      have hc := h.consistent k
      rw [setWait_self]
      refine ⟨fun h0 => absurd h0 hsched, hc.ready, fun _ => hready, ?_, hc.other, by simp⟩
      intro hm hs
      rcases hc.memory hm hs with ⟨-, h0⟩ | ⟨hs, -⟩
      · exact absurd h0 hne
      · exact Or.inr ⟨hs, (by decide : COMPLETED ≠ 0)⟩
    · rw [setWait_ne hk]
      exact h.consistent k
  · intro k j q hs hsrc hlast hq
    exact h.raw k j q ((hsched' k) ▸ hs) hsrc hlast fun hd => hq ((hdone q).2 (Or.inl hd))

end change

/-! ## Instructions come and go -/

section ends

/-- A new instruction at the place `i`. -/
def append (B : Board) (i : RobIndex) (a : Arch) (f : Nat) : Board :=
  { B with
    occupancy := B.occupancy + 1
    arch := Function.update B.arch i a
    fetched := Function.update B.fetched i f }

/-- The oldest instruction taken out; `a` is what its place is filled with. -/
def drop (B : Board) (a : Arch) : Board where
  head := Ring.next B.head
  occupancy := B.occupancy - 1
  arch := Function.update B.arch B.head a
  fetched := Function.update B.fetched B.head 0
  wait := Function.update B.wait B.head {}
  links := Function.update B.links B.head {}

variable {a : Arch} {f : Nat} {k : RobIndex}

theorem drop_ne (hk : k ≠ B.head) :
    (B.drop a).wait k = B.wait k ∧ (B.drop a).links k = B.links k ∧ (B.drop a).arch k = B.arch k
      ∧ (B.drop a).fetched k = B.fetched k := by
  simp [drop, hk]

theorem drop_head :
    (B.drop a).wait B.head = {} ∧ (B.drop a).links B.head = {} ∧ (B.drop a).fetched B.head = 0 := by
  simp [drop]

/-- An instruction is put at the end. -/
theorem Settled.append (h : B.Settled) (hi : B.age i = B.occupancy) : (B.append i a f).Settled := by
  have hout : ∀ {k}, B.In k → k ≠ i := by
    rintro k hk rfl
    exact lt_irrefl _ (hk.trans_eq hi.symm)
  have hin : ∀ {k}, B.In k → B.age k < B.occupancy + 1 := fun hk => Nat.lt_succ_of_lt hk
  have harch : ∀ {l}, B.In l → (B.append i a f).arch l = B.arch l :=
    fun hl => Function.update_of_ne (hout hl) _ _
  refine ⟨?_, ?_, h.member, h.instrs, h.producer, h.count, ?_, ?_, ?_⟩
  · intro k hk
    have hnot : ¬ B.In k := fun hk' => hk (hin hk')
    have hne : k ≠ i := by
      rintro rfl
      exact hk (Nat.lt_succ_of_le hi.le)
    have hfetched : (B.append i a f).fetched k = B.fetched k := Function.update_of_ne hne _ _
    rw [hfetched]
    exact h.blank k hnot
  · intro q k j he
    obtain ⟨hold, hk, hs⟩ := h.older q k j he
    exact ⟨hold, hin hk, hs⟩
  · intro k
    by_cases hk : k = i
    · subst hk
      have hfresh : B.wait k = {} := (h.blank k fun hin => hout hin rfl).1
      show (B.wait k).Consistent _
      rw [hfresh]
      exact Wait.consistent_fresh _
    · have harch : (B.append i a f).arch k = B.arch k := Function.update_of_ne hk _ _
      rw [harch]
      exact h.consistent k
  · intro k j q hs hsrc hlast hq
    have hk : B.In k := h.inROB_of_scheduled hs
    obtain ⟨hold, hwrites, hmax⟩ := hlast
    simp only [source, harch hk] at hsrc hwrites hmax
    have hold' : B.Older q k := hold
    rw [harch (hold'.inROB hk)] at hwrites
    refine h.raw k j q hs hsrc ⟨hold', hwrites, ?_⟩ hq
    intro l hl hlw
    refine hmax l hl ?_
    rw [harch (Older.inROB hl hk)]
    exact hlw
  · intro q k j he
    obtain ⟨hold, hk, -⟩ := h.older q k j he
    rw [source, harch hk, harch (hold.inROB hk)]
    exact h.writes q k j he

/-- The oldest instruction is complete and taken out. -/
theorem Settled.drop (h : B.Settled) (hdone : B.Done B.head) (hpos : 0 < B.occupancy)
    (hfits : B.occupancy ≤ 352) : (B.drop a).Settled := by
  generalize hB' : B.drop a = B'
  have hage : ∀ {k}, k ≠ B.head → B.age k = B'.age k + 1 := by
    intro k hk
    rw [← hB']
    exact Ring.age_next hk
  have hzero : B.age B.head = 0 := Ring.age_head B.head
  have hlast : B'.age B.head = 351 := by
    rw [← hB']
    exact Ring.age_next_head B.head
  have hle : ∀ k, B'.age k ≤ 351 := fun k => Nat.lt_succ_iff.1 (Ring.age_lt _ k)
  have hwait : ∀ {k}, k ≠ B.head → B'.wait k = B.wait k := by
    intro k hk
    rw [← hB']
    exact (drop_ne hk).1
  have hlinks : ∀ {k}, k ≠ B.head → B'.links k = B.links k := by
    intro k hk
    rw [← hB']
    exact (drop_ne hk).2.1
  have harch : ∀ {k}, k ≠ B.head → B'.arch k = B.arch k := by
    intro k hk
    rw [← hB']
    exact (drop_ne hk).2.2.1
  have hhead : B'.wait B.head = {} ∧ B'.links B.head = {} ∧ B'.fetched B.head = 0 := by
    rw [← hB']
    exact drop_head
  have hocc : B'.occupancy = B.occupancy - 1 := by
    rw [← hB']
    rfl
  have hIn : ∀ k, B'.In k ↔ B.In k ∧ k ≠ B.head := by
    intro k
    unfold In
    by_cases hk : k = B.head
    · subst hk
      rw [hlast, hocc]
      simp
      omega
    · rw [hage hk, hocc]
      simp only [ne_eq, hk, not_false_eq_true, and_true]
      omega
  have hEdge : ∀ q k j, B'.Edge q k j ↔ B.Edge q k j ∧ q ≠ B.head := by
    intro q k j
    unfold Edge
    by_cases hq : q = B.head
    · subst hq
      simp [hhead.2.1]
    · simp [hlinks hq, hq]
  have hne : ∀ {q k}, B.Older q k → k ≠ B.head := by
    intro q k hold hk
    rw [Older, hk, hzero] at hold
    exact Nat.not_lt_zero _ hold
  refine ⟨?_, ?_, ?_, ?_, ?_, ?_, ?_, ?_, ?_⟩
  · intro k hk
    by_cases hk' : k = B.head
    · rw [hk']
      exact hhead
    · have hfetched : B'.fetched k = B.fetched k := by
        rw [← hB']
        exact (drop_ne hk').2.2.2
      rw [hwait hk', hlinks hk', hfetched]
      exact h.blank k fun hin => hk ((hIn k).2 ⟨hin, hk'⟩)
  · intro q k j he
    obtain ⟨he, hq⟩ := (hEdge q k j).1 he
    obtain ⟨hold, hk, hs⟩ := h.older q k j he
    have hk' := hne hold
    refine ⟨?_, (hIn k).2 ⟨hk, hk'⟩, ?_⟩
    · have hlt : B.age q < B.age k := hold
      rw [hage hq, hage hk'] at hlt
      exact Nat.lt_of_succ_lt_succ hlt
    · rw [hwait hk']
      exact hs
  · intro q j v hv
    by_cases hq : q = B.head
    · rw [hq, hhead.2.1] at hv
      cases hv
    · rw [hlinks hq] at hv
      exact h.member q j v hv
  · intro q v
    by_cases hq : q = B.head
    · rw [hq, hhead.2.1]
      simp [hEdge]
    · rw [hlinks hq, h.instrs q v]
      simp [hEdge, hq]
  · intro q k j he
    obtain ⟨he, hq⟩ := (hEdge q k j).1 he
    rw [hlinks hq]
    exact h.producer q k j he
  · intro k
    by_cases hk : k = B.head
    · have hnone : (B'.pending k).card = 0 := by
        refine WaitGraph.card_pending_eq_zero.2 ?_
        intro q j he
        exact absurd hk (hne (h.older q k j ((hEdge q k j).1 he).1).1)
      rw [hnone, hk, hhead.1]
      rfl
    · have hsame : B'.pending k = B.pending k := by
        refine WaitGraph.pending_congr ?_
        intro q j
        rw [hEdge]
        by_cases hq : q = B.head
        · subst hq
          simp [hdone]
        · simp only [Done, hwait hq]
          tauto
      rw [hwait hk, hsame]
      exact h.count k
  · intro k
    by_cases hk : k = B.head
    · rw [hk, hhead.1]
      exact Wait.consistent_fresh _
    · rw [hwait hk, harch hk]
      exact h.consistent k
  · intro k j q hs hsrc hlast' hq
    have hk : k ≠ B.head := by
      rintro rfl
      exact hs (by rw [hhead.1])
    obtain ⟨hold, hwrites, hmax⟩ := hlast'
    have hqh : q ≠ B.head := by
      rintro rfl
      have hlt : B'.age B.head < B'.age k := hold
      have := hle k
      omega
    simp only [source, harch hk, harch hqh] at hsrc hwrites hmax
    have hold' : B.Older q k := by
      have hlt : B'.age q < B'.age k := hold
      rw [Older, hage hqh, hage hk]
      omega
    refine (hEdge q k j).2 ⟨h.raw k j q (hwait hk ▸ hs) hsrc ⟨hold', hwrites, ?_⟩ ?_, hqh⟩
    · intro l hl hlw
      by_cases hlh : l = B.head
      · rw [hlh, hzero]
        exact Nat.zero_le _
      · have hlt : B.age l < B.age k := hl
        rw [hage hlh, hage hk] at hlt
        have hle' := hmax l (Nat.lt_of_succ_lt_succ hlt) (by rw [harch hlh]; exact hlw)
        rw [hage hlh, hage hqh]
        omega
    · rw [Done, ← hwait hqh]
      exact hq
  · intro q k j he
    obtain ⟨he, hq⟩ := (hEdge q k j).1 he
    rw [source, harch hq, harch (hne (h.older q k j he).1)]
    exact h.writes q k j he

end ends

/-! ## Scheduling -/

section issue

/-- In `B'` the sources of `i` wait for the instructions that `w` says. -/
structure Linked (B B' : Board) (i : RobIndex) (w : Fin NUM_INSTR_SOURCES → Option RobIndex) :
    Prop where
  head : B'.head = B.head
  occupancy : B'.occupancy = B.occupancy
  arch : B'.arch = B.arch
  fetched : B'.fetched = B.fetched
  wait_ne : ∀ k, k ≠ i → B'.wait k = B.wait k
  wait : B'.wait i = { B.wait i with
    regReady := decide (∀ j, w j = none)
    numRegDependent :=
      (B.wait i).numRegDependent + (Finset.univ.filter fun j => (w j).isSome).card
    regRAWChecked := fun j => (w j).isSome }
  links_ne : ∀ p, (∀ j, w j ≠ some p) → B'.links p = B.links p
  index : ∀ p j v, v ∈ ((B'.links p).index j).toFinset
    ↔ v ∈ ((B.links p).index j).toFinset ∨ (v = asMember i ∧ w j = some p)
  instrs : ∀ p v, v ∈ (B'.links p).instrs.toFinset
    ↔ v ∈ (B.links p).instrs.toFinset ∨ (v = asMember i ∧ ∃ j, w j = some p)
  producer : ∀ p, (B'.links p).regRAWProducer = true
    ↔ (B.links p).regRAWProducer = true ∨ ∃ j, w j = some p

variable {w : Fin NUM_INSTR_SOURCES → Option RobIndex} {j : Fin NUM_INSTR_SOURCES}

/-- Nothing is waited for yet. -/
theorem Linked.start (h : (B.wait i).regRAWChecked = fun _ => false) :
    Linked B (B.setWait i { B.wait i with regReady := true }) i
      fun _ => none := by
  refine ⟨rfl, rfl, rfl, rfl, ?_, ?_, ?_, ?_, ?_, ?_⟩
  · intro k hk
    simp [hk]
  · simp [h]
  · intro p _
    rfl
  · simp
  · simp
  · simp

theorem Linked.edge (h : Linked B B' i w) (p k : RobIndex) :
    B'.Edge p k j ↔ B.Edge p k j ∨ (k = i ∧ w j = some p) := by
  unfold Edge
  rw [h.index]
  constructor
  · rintro (he | ⟨hk, hw⟩)
    · exact Or.inl he
    · exact Or.inr ⟨asMember_inj hk, hw⟩
  · rintro (he | ⟨rfl, hw⟩)
    · exact Or.inl he
    · exact Or.inr ⟨rfl, hw⟩

/-- One more source waits, for the instruction `p`. -/
theorem Linked.link (h : Linked B B' i w) (hj : w j = none) (hp : p ≠ i) :
    Linked B { B' with
      wait := Function.update B'.wait i { B'.wait i with
        regReady := false
        numRegDependent := (B'.wait i).numRegDependent + 1
        regRAWChecked := Function.update (B'.wait i).regRAWChecked j true }
      links := Function.update B'.links p {
        regRAWProducer := true
        instrs := (B'.links p).instrs.insert (asMember i)
        index := Function.update (B'.links p).index j
          (((B'.links p).index j).insert (asMember i)) } } i (Function.update w j (some p)) := by
  have hat : ∀ q l, Function.update w j (some p) l = some q
      ↔ (l = j ∧ p = q) ∨ (l ≠ j ∧ w l = some q) := by
    intro q l
    by_cases hl : l = j
    · subst hl
      simp
    · simp [hl]
  have hsome : ∀ q, (∃ l, Function.update w j (some p) l = some q) ↔ p = q ∨ ∃ l, w l = some q := by
    intro q
    simp only [hat]
    constructor
    · rintro ⟨l, ⟨-, hq⟩ | ⟨-, hl⟩⟩
      · exact Or.inl hq
      · exact Or.inr ⟨l, hl⟩
    · rintro (hq | ⟨l, hl⟩)
      · exact ⟨j, Or.inl ⟨rfl, hq⟩⟩
      · refine ⟨l, Or.inr ⟨?_, hl⟩⟩
        rintro rfl
        rw [hj] at hl
        cases hl
  refine ⟨h.head, h.occupancy, h.arch, h.fetched, ?_, ?_, ?_, ?_, ?_, ?_⟩
  · intro k hk
    simp only [Function.update_of_ne hk]
    exact h.wait_ne k hk
  · have hset : (Finset.univ.filter fun l => (Function.update w j (some p) l).isSome)
        = insert j (Finset.univ.filter fun l => (w l).isSome) := by
      ext l
      by_cases hl : l = j
      · subst hl
        simp
      · simp [hl]
    have hcard : (insert j (Finset.univ.filter fun l => (w l).isSome)).card
        = (Finset.univ.filter fun l => (w l).isSome).card + 1 :=
      Finset.card_insert_of_notMem (by simp [hj])
    have hnot : ¬ ∀ l, Function.update w j (some p) l = none := by
      intro hall
      have := hall j
      simp at this
    have hchecked : Function.update (fun l => (w l).isSome) j true
        = fun l => (Function.update w j (some p) l).isSome := by
      funext l
      by_cases hl : l = j
      · subst hl
        simp
      · simp [hl]
    simp only [Function.update_self, h.wait, hset, hcard, decide_eq_false hnot, hchecked]
    push_cast
    rw [add_assoc]
  · intro q hq
    have hqp : q ≠ p := by
      rintro rfl
      exact hq j (by simp)
    simp only [Function.update_of_ne hqp]
    exact h.links_ne q fun l hl => (not_exists.2 hq) ((hsome q).2 (Or.inr ⟨l, hl⟩))
  · intro q l v
    rw [hat]
    by_cases hqp : q = p
    · subst hqp
      by_cases hl : l = j
      · subst hl
        simp [h.index, hj, or_comm]
      · simp [h.index, hl]
    · simp only [Function.update_of_ne hqp, h.index, Ne.symm hqp, and_false, false_or]
      constructor
      · rintro (hv | ⟨hv, hl⟩)
        · exact Or.inl hv
        · refine Or.inr ⟨hv, ?_, hl⟩
          rintro rfl
          rw [hj] at hl
          cases hl
      · rintro (hv | ⟨hv, -, hl⟩)
        · exact Or.inl hv
        · exact Or.inr ⟨hv, hl⟩
  · intro q v
    rw [hsome]
    by_cases hqp : q = p
    · subst hqp
      simp only [Function.update_self, FastSet.toFinset_insert, Finset.mem_insert, h.instrs,
        true_or, and_true]
      tauto
    · simp only [Function.update_of_ne hqp, h.instrs, Ne.symm hqp, false_or]
  · intro q
    rw [hsome]
    by_cases hqp : q = p
    · subst hqp
      simp
    · simp only [Function.update_of_ne hqp, h.producer, Ne.symm hqp, false_or]

/-- The writers of the source `j` of `i` that are not complete. -/
def Writes (B : Board) (i : RobIndex) (j : Fin NUM_INSTR_SOURCES) (q : RobIndex) : Prop :=
  ¬ B.Done q ∧ (B.arch q).writes (B.source i j) = true

/-- An instruction is scheduled: each of its sources waits for the youngest older instruction
that writes it and is not complete. -/
theorem Settled.issue (h : B.Settled) (hin : B.In i) (hnew : (B.wait i).scheduled = 0)
    (hl : Linked B B' i w)
    (hw : ∀ j p, w j = some p ↔ B.source i j ≠ 0#8 ∧ B.Youngest i (B.Writes i j) p) :
    (B'.setWait i { B'.wait i with
      scheduled := if (B.arch i).isMemory then INFLIGHT else COMPLETED }).Settled := by
  generalize hB : (B'.setWait i { B'.wait i with
      scheduled := if (B.arch i).isMemory then INFLIGHT else COMPLETED }) = B''
  obtain ⟨hexec, -, -⟩ := (h.consistent i).fresh hnew
  have hsched : (if (B.arch i).isMemory then INFLIGHT else COMPLETED) ≠ 0 := by
    split
    · decide
    · decide
  have hnone : ∀ q j, ¬ B.Edge q i j := fun q j he => (h.older q i j he).2.2 hnew
  have hzero : (B.wait i).numRegDependent = 0 := by
    have hcard : (B.pending i).card = 0 :=
      WaitGraph.card_pending_eq_zero.2 fun q j he => absurd he (hnone q j)
    rw [h.count i, hcard]
    rfl
  have hwait : B''.wait i = { B'.wait i with
      scheduled := if (B.arch i).isMemory then INFLIGHT else COMPLETED } := by
    simp [← hB]
  have hwait_ne : ∀ k, k ≠ i → B''.wait k = B.wait k := by
    intro k hk
    rw [← hB, setWait_ne hk]
    exact hl.wait_ne k hk
  have hlinks : B''.links = B'.links := by rw [← hB, setWait_links]
  have harch : B''.arch = B.arch := by
    rw [← hB, setWait_arch]
    exact hl.arch
  have hage : ∀ k, B''.age k = B.age k := by
    intro k
    simp only [age, ← hB, setWait_head, hl.head]
  have hIn : ∀ k, B''.In k ↔ B.In k := by
    intro k
    have hocc : B''.occupancy = B.occupancy := by
      rw [← hB, setWait_occupancy]
      exact hl.occupancy
    simp only [In, hage, hocc]
  have hOlder : ∀ q k, B''.Older q k ↔ B.Older q k := by
    intro q k
    simp only [Older, hage]
  have hEdge : ∀ q k j, B''.Edge q k j ↔ B.Edge q k j ∨ (k = i ∧ w j = some q) := by
    intro q k j
    rw [← hl.edge]
    simp only [Edge, hlinks]
  have hexec' : (B''.wait i).executed = 0 := by
    rw [hwait, hl.wait]
    exact hexec
  have hDone : ∀ q, B''.Done q ↔ B.Done q := by
    intro q
    by_cases hq : q = i
    · subst hq
      simp only [Done, hexec', hexec]
    · simp only [Done, hwait_ne q hq]
  have hsched_of : ∀ k, (B.wait k).scheduled ≠ 0 → (B''.wait k).scheduled ≠ 0 := by
    intro k hk
    have hki : k ≠ i := by
      rintro rfl
      exact hk hnew
    rw [hwait_ne k hki]
    exact hk
  refine ⟨?_, ?_, ?_, ?_, ?_, ?_, ?_, ?_, ?_⟩
  · intro k hk
    have hout : ¬ B.In k := fun hk' => hk ((hIn k).2 hk')
    have hki : k ≠ i := fun he => hout (he ▸ hin)
    have hnever : ∀ j, w j ≠ some k := by
      intro j hj
      exact hout (Older.inROB ((hw j k).1 hj).2.1 hin)
    have hfetched : B''.fetched k = B.fetched k := by
      simp only [← hB, setWait_fetched, hl.fetched]
    rw [hwait_ne k hki, hlinks, hl.links_ne k hnever, hfetched]
    exact h.blank k hout
  · intro q k j he
    rcases (hEdge q k j).1 he with he | ⟨rfl, hj⟩
    · obtain ⟨hold, hk, hs⟩ := h.older q k j he
      exact ⟨(hOlder q k).2 hold, (hIn k).2 hk, hsched_of k hs⟩
    · refine ⟨(hOlder q k).2 ((hw j q).1 hj).2.1, (hIn k).2 hin, ?_⟩
      rw [hwait]
      exact hsched
  · intro q j v hv
    rw [hlinks, hl.index] at hv
    rcases hv with hv | ⟨hv, -⟩
    · exact h.member q j v hv
    · exact ⟨i, hv⟩
  · intro q v
    rw [hlinks, hl.instrs, h.instrs]
    constructor
    · rintro (⟨k, j, hv, he⟩ | ⟨hv, j, hj⟩)
      · exact ⟨k, j, hv, (hEdge q k j).2 (Or.inl he)⟩
      · exact ⟨i, j, hv, (hEdge q i j).2 (Or.inr ⟨rfl, hj⟩)⟩
    · rintro ⟨k, j, hv, he⟩
      rcases (hEdge q k j).1 he with he | ⟨rfl, hj⟩
      · exact Or.inl ⟨k, j, hv, he⟩
      · exact Or.inr ⟨hv, j, hj⟩
  · intro q k j he
    rw [hlinks, hl.producer]
    rcases (hEdge q k j).1 he with he | ⟨rfl, hj⟩
    · exact Or.inl (h.producer q k j he)
    · exact Or.inr ⟨j, hj⟩
  · intro k
    by_cases hk : k = i
    · subst hk
      have hcard : (B''.pending k).card = (Finset.univ.filter fun j => (w j).isSome).card := by
        refine WaitGraph.card_pending_link ?_ ?_
        · intro q j
          rw [hEdge]
          simp [hnone]
        · intro q j hj hd
          exact ((hw j q).1 hj).2.2.1.1 ((hDone q).1 hd)
      rw [hwait, hl.wait, hcard]
      simp [hzero]
    · have hsame : B''.pending k = B.pending k := by
        refine pending_congr ?_ hDone
        intro q j
        rw [hEdge]
        simp [hk]
      rw [hwait_ne k hk, hsame]
      exact h.count k
  · intro k
    rw [harch]
    by_cases hk : k = i
    · subst hk
      rw [hwait, hl.wait]
      refine ⟨fun h0 => absurd h0 hsched, ?_, fun hne => absurd hexec hne, ?_, ?_, Or.inl hexec⟩
      · intro _
        simp [hzero, Finset.filter_eq_empty_iff]
      · intro hm _
        exact Or.inl ⟨if_pos hm, hexec⟩
      · intro hm _
        exact if_neg (by simp [hm])
    · rw [hwait_ne k hk]
      exact h.consistent k
  · intro k j q hs hsrc hlast hq
    rw [hDone] at hq
    have hsrc' : B.source k j ≠ 0#8 := by
      simp only [source, harch] at hsrc
      exact hsrc
    obtain ⟨hold, hwrites, hmax⟩ := hlast
    simp only [source, harch] at hwrites hmax
    have hlast' : B.LastWriter k j q := by
      refine ⟨(hOlder q k).1 hold, hwrites, ?_⟩
      intro l hlk hlw
      have hle := hmax l ((hOlder l k).2 hlk) hlw
      rwa [hage, hage] at hle
    rw [hEdge]
    by_cases hk : k = i
    · subst hk
      refine Or.inr ⟨rfl, (hw j q).2 ⟨hsrc', hlast'.1, ⟨hq, hlast'.2.1⟩, ?_⟩⟩
      exact fun l hlk hlw => hlast'.2.2 l hlk hlw.2
    · rw [hwait_ne k hk] at hs
      exact Or.inl (h.raw k j q hs hsrc' hlast' hq)
  · intro q k j he
    rw [source, harch]
    rcases (hEdge q k j).1 he with he | ⟨rfl, hj⟩
    · exact h.writes q k j he
    · exact ((hw j q).1 hj).2.2.1.2

end issue

end Board

end SandboxPredictor
