import SandboxPredictor.ChampSim.FastSet
import SandboxPredictor.Lib.RingScan

/- `PACKET` and `PACKET_QUEUE` of `inc/block.h` and `src/block.cc`, as the caches and
   the memory controller use them.

   A queue is a ring of `SIZE = n + 1` places. Its owner clears the places it gives
   up, so a place whose packet has address 0 is free. `none` is the `SIZE` that an
   index takes when there is no entry. Cycle counts are natural numbers; the
   `UINT64_MAX` of an event that is not scheduled is kept. -/
namespace SandboxPredictor

def NUM_CPUS : Nat := 1
def UINT64_MAX : Nat := 2 ^ 64 - 1

/-- The types of an access to memory. -/
inductive AccessType where
  | LOAD
  | RFO
  | PREFETCH
  | WRITEBACK
  deriving DecidableEq, Repr

/-- `returned` of a packet, and the progress of an instruction. -/
def INFLIGHT : Nat := 1
def COMPLETED : Nat := 2

/-- `PACKET`. The two index fields of a queue and the one of the reorder buffer are
places of those, which the dependence sets have room for. -/
structure Packet where
  instruction : Bool := false
  isData : Bool := true
  fillL1i : Bool := false
  fillL1d : Bool := false
  tlbAccess : Bool := false
  scheduled : Bool := false
  fillLevel : Int := -1
  robIndex : SetValue := SetValue.zero
  lqIndex : SetValue := SetValue.zero
  sqIndex : SetValue := SetValue.zero
  robIndexDependOnMe : FastSet := FastSet.empty
  lqIndexDependOnMe : FastSet := FastSet.empty
  sqIndexDependOnMe : FastSet := FastSet.empty
  instrMerged : Bool := false
  loadMerged : Bool := false
  storeMerged : Bool := false
  returned : Nat := 0
  type : AccessType := .LOAD
  cpu : Nat := NUM_CPUS
  dataIndex : Nat := 0
  address : Word := 0#64
  fullAddr : Word := 0#64
  data : Word := 0#64
  instrId : Word := 0#64
  ip : Word := 0#64
  eventCycle : Nat := UINT64_MAX
  cycleEnqueued : Nat := 0
  pfMetadata : BitVec 32 := 0#32

/-- `PACKET()`. -/
def Packet.empty : Packet := {}

@[simp] theorem Packet.empty_address : Packet.empty.address = 0#64 := rfl

/-- What a queue knows a packet by: the full address in the write queue of the L1 data
cache, the block address elsewhere. -/
def Packet.key (name : String) (p : Packet) : Word :=
  if name = "L1D_WQ" then p.fullAddr else p.address

/-- Whether the queue of that name takes the packet `e` it has for `p`. -/
def Packet.sameIn (name : String) (p e : Packet) : Bool := e.key name = p.key name

/-- `PACKET_QUEUE` of `n + 1` places. -/
structure PacketQueue (n : Nat) where
  name : String
  head : Fin (n + 1) := Ring.first
  tail : Fin (n + 1) := Ring.first
  occupancy : Nat := 0
  numReturned : Nat := 0
  nextFillIndex : Option (Fin (n + 1)) := some Ring.first
  nextFillCycle : Nat := UINT64_MAX
  nextScheduleIndex : Option (Fin (n + 1)) := some Ring.first
  nextScheduleCycle : Nat := UINT64_MAX
  nextProcessIndex : Option (Fin (n + 1)) := some Ring.first
  nextProcessCycle : Nat := UINT64_MAX
  access : Nat := 0
  forward : Nat := 0
  merged : Nat := 0
  toCache : Nat := 0
  rowBufferHit : Nat := 0
  rowBufferMiss : Nat := 0
  full : Nat := 0
  entry : Fin (n + 1) → Packet := fun _ => Packet.empty

namespace PacketQueue

variable {n : Nat}

def same (q : PacketQueue n) (p e : Packet) : Bool := Packet.sameIn q.name p e

/-- `check_queue`; `none` is -1. -/
def checkQueue (q : PacketQueue n) (p : Packet) : Option (Fin (n + 1)) :=
  if q.head = q.tail ∧ q.occupancy = 0 then none
  else (Ring.scan q.head q.tail).find? (fun i => q.same p (q.entry i))

/-- A packet in the place of the tail, and the tail moved on. -/
def append (q : PacketQueue n) (p : Packet) : PacketQueue n :=
  { q with entry := Function.update q.entry q.tail p, occupancy := q.occupancy + 1,
           tail := Ring.next q.tail }

/-- The packet at `i` replaced. -/
def setEntry (q : PacketQueue n) (i : Fin (n + 1)) (p : Packet) : PacketQueue n :=
  { q with entry := Function.update q.entry i p }

@[simp] theorem setEntry_entry (q : PacketQueue n) (i : Fin (n + 1)) (p : Packet) :
    (q.setEntry i p).entry = Function.update q.entry i p := rfl

/-- `add_queue`; `none` is a failed assertion. -/
def addQueue (q : PacketQueue n) (p : Packet) : Option (PacketQueue n) :=
  if q.occupancy ≠ 0 ∧ q.head = q.tail then none else some (q.append p)

/-- The place `i` cleared, and the head moved on. -/
def release (q : PacketQueue n) (i : Fin (n + 1)) : PacketQueue n :=
  { q with entry := Function.update q.entry i Packet.empty, occupancy := q.occupancy - 1,
           head := Ring.next q.head }

@[simp] theorem release_entry (q : PacketQueue n) (i : Fin (n + 1)) :
    (q.release i).entry = Function.update q.entry i Packet.empty := rfl

/-- `remove_queue` of the packet at `i`; `none` is a failed assertion. -/
def removeQueue (q : PacketQueue n) (i : Fin (n + 1)) : Option (PacketQueue n) :=
  if q.occupancy = 0 ∧ q.head = q.tail then none else some (q.release i)

/-- The queue holds the packets `L`, oldest first, and its other places are free. -/
structure Wf (q : PacketQueue n) (L : List Packet) : Prop where
  ring : Ring.Clean Packet.empty q.head q.tail q.entry L
  occupancy : q.occupancy = L.length

namespace Wf

variable {q : PacketQueue n} {L : List Packet} {p : Packet}

theorem length_le (h : q.Wf L) : L.length ≤ n + 1 := h.ring.fits

/-- The two ends meet when the queue is empty and when it is full. -/
theorem head_eq_tail (h : q.Wf L) : q.head = q.tail ↔ L = [] ∨ L.length = n + 1 := by
  have htail := h.ring.tail_eq
  have hfits := h.ring.fits
  constructor
  · intro he
    rw [← he] at htail
    by_contra hne
    obtain ⟨hnil, hfull⟩ := not_or.1 hne
    have hpos : 0 < L.length := List.length_pos_iff.2 hnil
    exact Ring.cell_ne q.head (i := L.length) (j := 0) (by omega) (by omega) (by omega)
      (by rw [Ring.cell_zero]; exact htail.symm)
  · rintro (rfl | hfull)
    · rw [htail, List.length_nil, Ring.cell_zero]
    · rw [htail]
      apply Fin.ext
      simp [Ring.cell, hfull, Nat.mod_eq_of_lt q.head.isLt]

/-- `check_queue` finds the oldest packet taken for `p`, in one stretch or wrapped. -/
theorem checkQueue_eq (h : q.Wf L) (p : Packet) :
    q.checkQueue p = (L.findIdx? (q.same p)).map (Ring.cell q.head) := by
  unfold checkQueue
  by_cases hL : L = []
  · subst hL
    have hhead : q.head = q.tail := h.head_eq_tail.2 (Or.inl rfl)
    have hocc : q.occupancy = 0 := h.occupancy
    rw [if_pos ⟨hhead, hocc⟩]
    rfl
  · have hocc : q.occupancy ≠ 0 := by
      rw [h.occupancy, Ne, List.length_eq_zero_iff]
      exact hL
    rw [if_neg (fun hc => hocc hc.2)]
    exact h.ring.toHolds.find?_scan hL (q.same p)

/-- The two ways a search can go, with what the list of packets says of them. -/
theorem checkQueue_cases (h : q.Wf L) (p : Packet) :
    (∃ i e, q.checkQueue p = some (Ring.cell q.head i) ∧ i < L.length
        ∧ L.findIdx? (q.same p) = some i ∧ L.find? (q.same p) = some e
        ∧ q.entry (Ring.cell q.head i) = e)
      ∨ (q.checkQueue p = none ∧ L.findIdx? (q.same p) = none
        ∧ L.find? (q.same p) = none) := by
  have hcheck := h.checkQueue_eq p
  have hfind : L.find? (q.same p) = (L.findIdx? (q.same p)).bind (L[·]?) :=
    List.find?_eq_bind_findIdx?_getElem?
  cases hidx : L.findIdx? (q.same p) with
  | none =>
    rw [hidx] at hcheck hfind
    exact Or.inr ⟨hcheck, rfl, hfind⟩
  | some i =>
    rw [hidx] at hcheck hfind
    have hi : i < L.length := (List.findIdx?_eq_some_iff_getElem.1 hidx).1
    have hcell := h.ring.cells i hi
    refine Or.inl ⟨i, q.entry (Ring.cell q.head i), hcheck, hi, rfl, ?_, rfl⟩
    rw [hfind, Option.bind_some, hcell]

theorem append (h : q.Wf L) (hroom : L.length < n + 1) (p : Packet) :
    (q.append p).Wf (L ++ [p]) where
  ring := h.ring.push hroom p
  occupancy := by simp [PacketQueue.append, h.occupancy]

/-- With room left, the assertion of `add_queue` holds. -/
theorem addQueue (h : q.Wf L) (hroom : L.length < n + 1) (p : Packet) :
    q.addQueue p = some (q.append p) := by
  unfold PacketQueue.addQueue
  rw [if_neg]
  rintro ⟨hocc, hends⟩
  rcases h.head_eq_tail.1 hends with rfl | hfull
  · exact hocc h.occupancy
  · omega

theorem release (h : q.Wf L) (hL : L ≠ []) : (q.release q.head).Wf L.tail := by
  obtain ⟨e, L, rfl⟩ := List.exists_cons_of_ne_nil hL
  refine ⟨h.ring.pop, ?_⟩
  rw [PacketQueue.release, h.occupancy, List.length_cons, Nat.add_sub_cancel, List.tail_cons]

/-- Taking the oldest packet: the assertion of `remove_queue` holds. -/
theorem removeQueue (h : q.Wf L) (hL : L ≠ []) (i : Fin (n + 1)) :
    q.removeQueue i = some (q.release i) := by
  unfold PacketQueue.removeQueue
  rw [if_neg]
  rintro ⟨hocc, -⟩
  rw [h.occupancy] at hocc
  exact hL (List.length_eq_zero_iff.1 hocc)

theorem setEntry (h : q.Wf L) {i : Nat} (hi : i < L.length) (f : Packet → Packet) :
    (q.setEntry (Ring.cell q.head i) (f (q.entry (Ring.cell q.head i)))).Wf (L.modify i f) where
  ring := h.ring.modify hi f
  occupancy := by simp [PacketQueue.setEntry, h.occupancy]

/-- A free place is one whose packet has address 0. -/
theorem tail_address (h : q.Wf L) (hroom : L.length < n + 1) :
    (q.entry q.tail).address = 0#64 := by
  rw [h.ring.tail_blank hroom, Packet.empty_address]

end Wf

end PacketQueue

end SandboxPredictor
