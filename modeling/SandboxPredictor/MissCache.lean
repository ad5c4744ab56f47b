import SandboxPredictor.MissCache.LRU
import SandboxPredictor.MissCache.NRU
import SandboxPredictor.MissCache.SLRU

/- What a `MissCache*` may point to: an object of class `MissCache` itself, of one
   of the three replacement policies, or a `FixedMCache` (`fixed.cc`).

   An access does not touch the saved state, so it moves no index
   (`getIdx_access`): the indices change with snapshots only. -/
namespace SandboxPredictor

/-- `FixedMCache`: the pcs it was constructed with. -/
structure FixedMCache (numEntries : Nat) where
  savedState : Fin numEntries → Word

def FixedMCache.getIdx {n : Nat} (c : FixedMCache (n + 1)) (pc : Word) : Option (Fin (n + 1)) :=
  savedIdx c.savedState pc

/-- An object behind a `MissCache*`. -/
inductive MissCache (numEntries : Nat) where
  | base
  | lru (c : LRUMCache numEntries)
  | nru (c : NRUMCache numEntries)
  | slru (c : SLRUMCache numEntries)
  | fixed (c : FixedMCache numEntries)

namespace MissCache

variable {n : Nat}

def getIdx : MissCache (n + 1) → Word → Option (Fin (n + 1))
  | base, _ => none
  | lru c, pc => c.getIdx pc
  | nru c, pc => c.getIdx pc
  | slru c, pc => c.getIdx pc
  | fixed c, pc => c.getIdx pc

/-- `access`, given the `rand()` result an NRU cache draws. -/
def access : MissCache (n + 1) → Word → Nat → Option (Fin (n + 1)) × MissCache (n + 1)
  | base, _, _ => (none, base)
  | lru c, pc, _ => ((c.access pc).1, lru (c.access pc).2)
  | nru c, pc, randBase => ((c.access pc randBase).1, nru (c.access pc randBase).2)
  | slru c, pc, _ => ((c.access pc).1, slru (c.access pc).2)
  | fixed c, _, _ => (none, fixed c)

def snapshot : MissCache (n + 1) → MissCache (n + 1)
  | base => base
  | lru c => lru c.snapshot
  | nru c => nru c.snapshot
  | slru c => slru c.snapshot
  | fixed c => fixed c

def reset : MissCache (n + 1) → MissCache (n + 1)
  | base => base
  | lru c => lru c.reset
  | nru c => nru c.reset
  | slru c => slru c.reset
  | fixed c => fixed c

/-- The pc saved for each slot. -/
def savedState : MissCache (n + 1) → Fin (n + 1) → Word
  | base, _ => 0
  | lru c, i => c.savedState i
  | nru c, i => c.savedState i
  | slru c, i => c.savedState i
  | fixed c, i => c.savedState i

/-- An access does not touch the saved state. -/
theorem access_savedState (c : MissCache (n + 1)) (pc : Word) (randBase : Nat) :
    (c.access pc randBase).2.savedState = c.savedState := by
  funext i
  cases c with
  | base => rfl
  | lru c => rfl
  | nru c => rfl
  | slru c =>
    show (c.access pc).2.savedState i = c.savedState i
    simp only [SLRUMCache.access]
    split_ifs <;> rfl
  | fixed c => rfl

/-- An access moves no index. -/
theorem getIdx_access (c : MissCache (n + 1)) (pc : Word) (randBase : Nat) (pc' : Word) :
    (c.access pc randBase).2.getIdx pc' = c.getIdx pc' := by
  have hsaved := access_savedState c pc randBase
  cases c with
  | base => rfl
  | lru c => rfl
  | nru c => rfl
  | slru c => exact congrArg (fun saved => savedIdx saved pc') hsaved
  | fixed c => rfl

end MissCache

end SandboxPredictor
