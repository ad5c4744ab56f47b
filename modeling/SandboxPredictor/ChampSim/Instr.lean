import SandboxPredictor.ChampSim.PacketQueue

/- The instructions of `inc/instruction.h`: the records of a trace, what the core
   keeps of an instruction, and how `read_from_trace` makes the one of the other.

   The core sees a trace twice over: next to each record it looks at the one that
   follows, to know where a taken branch goes, and what kind of branch a record is
   is read off the registers it uses. -/
namespace SandboxPredictor

abbrev NUM_INSTR_SOURCES : Nat := 4
abbrev NUM_INSTR_DESTINATIONS : Nat := 2

def REG_STACK_POINTER : BitVec 8 := 6#8
def REG_FLAGS : BitVec 8 := 25#8
def REG_INSTRUCTION_POINTER : BitVec 8 := 26#8

inductive BranchType where
  | NOT_BRANCH
  | BRANCH_DIRECT_JUMP
  | BRANCH_INDIRECT
  | BRANCH_CONDITIONAL
  | BRANCH_DIRECT_CALL
  | BRANCH_INDIRECT_CALL
  | BRANCH_RETURN
  | BRANCH_OTHER
  deriving DecidableEq, Repr

/-- `input_instr`: a record of a trace. -/
structure InputInstr where
  ip : Word := 0#64
  isBranch : Bool := false
  branchTaken : Bool := false
  destinationRegisters : Fin NUM_INSTR_DESTINATIONS → BitVec 8 := fun _ => 0#8
  sourceRegisters : Fin NUM_INSTR_SOURCES → BitVec 8 := fun _ => 0#8
  destinationMemory : Fin NUM_INSTR_DESTINATIONS → Word := fun _ => 0#64
  sourceMemory : Fin NUM_INSTR_SOURCES → Word := fun _ => 0#64

/-- `ooo_model_instr`: an instruction in the core. -/
structure OooModelInstr where
  instrId : Nat := 0
  ip : Word := 0#64
  producerId : Nat := 0
  eventCycle : Nat := 0
  isBranch : Bool := false
  isMemory : Bool := false
  branchTaken : Bool := false
  branchMispredicted : Bool := false
  branchType : BranchType := .NOT_BRANCH
  branchTarget : Word := 0#64
  translated : Nat := 0
  fetched : Nat := 0
  scheduled : Nat := 0
  executed : Nat := 0
  regReady : Bool := false
  regRAWProducer : Bool := false
  regRAWChecked : Fin NUM_INSTR_SOURCES → Bool := fun _ => false
  numRegOps : Nat := 0
  numMemOps : Int := 0
  numRegDependent : Int := 0
  destinationRegisters : Fin NUM_INSTR_DESTINATIONS → BitVec 8 := fun _ => 0#8
  sourceRegisters : Fin NUM_INSTR_SOURCES → BitVec 8 := fun _ => 0#8
  destinationMemory : Fin NUM_INSTR_DESTINATIONS → Word := fun _ => 0#64
  sourceMemory : Fin NUM_INSTR_SOURCES → Word := fun _ => 0#64
  registersInstrsDependOnMe : FastSet := FastSet.empty
  registersIndexDependOnMe : Fin NUM_INSTR_SOURCES → FastSet := fun _ => FastSet.empty

/-- `ooo_model_instr()`. -/
def OooModelInstr.empty : OooModelInstr := {}

/-- What the core is given of an instruction and never changes. -/
structure Arch where
  instrId : Nat
  ip : Word
  isBranch : Bool
  isMemory : Bool
  branchTaken : Bool
  branchType : BranchType
  branchTarget : Word
  numRegOps : Nat
  destinationRegisters : Fin NUM_INSTR_DESTINATIONS → BitVec 8
  sourceRegisters : Fin NUM_INSTR_SOURCES → BitVec 8
  destinationMemory : Fin NUM_INSTR_DESTINATIONS → Word
  sourceMemory : Fin NUM_INSTR_SOURCES → Word

def OooModelInstr.arch (x : OooModelInstr) : Arch :=
  ⟨x.instrId, x.ip, x.isBranch, x.isMemory, x.branchTaken, x.branchType, x.branchTarget,
    x.numRegOps, x.destinationRegisters, x.sourceRegisters, x.destinationMemory, x.sourceMemory⟩

/-- What is given of an instruction and how much of it has been executed. -/
def OooModelInstr.work (x : OooModelInstr) : Arch × Nat × Int := (x.arch, x.executed, x.numMemOps)

/-- Whether the instruction writes the register; register 0 is none. -/
def Arch.writes (a : Arch) (r : BitVec 8) : Bool :=
  (List.finRange NUM_INSTR_DESTINATIONS).any fun i =>
    a.destinationRegisters i ≠ 0#8 && a.destinationRegisters i = r

namespace InputInstr

/-- The special registers that a record reads and writes. -/
structure RegUse where
  readsSp : Bool
  writesSp : Bool
  readsFlags : Bool
  readsIp : Bool
  writesIp : Bool
  readsOther : Bool

def regUse (r : InputInstr) : RegUse :=
  let reads (p : BitVec 8 → Bool) :=
    (List.finRange NUM_INSTR_SOURCES).any fun i => p (r.sourceRegisters i)
  let writes x := (List.finRange NUM_INSTR_DESTINATIONS).any fun i => r.destinationRegisters i = x
  { readsSp := reads (· = REG_STACK_POINTER)
    writesSp := writes REG_STACK_POINTER
    readsFlags := reads (· = REG_FLAGS)
    readsIp := reads (· = REG_INSTRUCTION_POINTER)
    writesIp := writes REG_INSTRUCTION_POINTER
    readsOther := reads fun x =>
      x ≠ 0#8 && x ≠ REG_STACK_POINTER && x ≠ REG_FLAGS && x ≠ REG_INSTRUCTION_POINTER }

/-- What kind of branch a record is, if any; `none` keeps what the trace says. -/
def RegUse.classify (u : RegUse) : BranchType × Option Bool :=
  if !u.readsSp && !u.readsFlags && u.writesIp && !u.readsOther then
    (.BRANCH_DIRECT_JUMP, some true)
  else if !u.readsSp && !u.readsFlags && u.writesIp && u.readsOther then
    (.BRANCH_INDIRECT, some true)
  else if !u.readsSp && u.readsIp && !u.writesSp && u.writesIp && u.readsFlags && !u.readsOther then
    (.BRANCH_CONDITIONAL, none)
  else if u.readsSp && u.readsIp && u.writesSp && u.writesIp && !u.readsFlags && !u.readsOther then
    (.BRANCH_DIRECT_CALL, some true)
  else if u.readsSp && u.readsIp && u.writesSp && u.writesIp && !u.readsFlags && u.readsOther then
    (.BRANCH_INDIRECT_CALL, some true)
  else if u.readsSp && !u.readsIp && u.writesSp && u.writesIp then
    (.BRANCH_RETURN, some true)
  else if u.writesIp then (.BRANCH_OTHER, none)
  else (.NOT_BRANCH, none)

def count {n : Nat} (p : Fin n → Bool) : Nat := (List.finRange n).countP p

/-- The instruction that `read_from_trace` makes of a record and the one it has read
after it. -/
def archInstr (instrId : Nat) (current next : InputInstr) : OooModelInstr :=
  let (branchType, taken) := current.regUse.classify
  let isBranch := current.isBranch || branchType ≠ .NOT_BRANCH
  let branchTaken := taken.getD current.branchTaken
  let numMemOps := count (fun i => current.destinationMemory i ≠ 0#64)
    + count (fun i => current.sourceMemory i ≠ 0#64)
  { instrId := instrId, ip := current.ip, isBranch := isBranch, branchTaken := branchTaken
    branchType := branchType
    branchTarget := if isBranch && branchTaken then next.ip else 0#64
    destinationRegisters := current.destinationRegisters
    sourceRegisters := current.sourceRegisters
    destinationMemory := current.destinationMemory
    sourceMemory := current.sourceMemory
    numRegOps := count (fun i => current.destinationRegisters i ≠ 0#8)
      + count (fun i => current.sourceRegisters i ≠ 0#8)
    numMemOps := numMemOps
    isMemory := 0 < numMemOps }

end InputInstr

end SandboxPredictor
