import SandboxPredictor.ChampSim.PacketQueue
import SandboxPredictor.Lib.KeyTable
import SandboxPredictor.Lib.Recency
import SandboxPredictor.Lib.Mealy

/- Replacement in the block array of a `CACHE`: what the handlers of `src/cache.cc` ask
   of a policy, and the least recently used block of `replacement/base_replacement.cc`
   and `replacement/lru.llc_repl`.

   The `lru` fields of a set are a permutation in every run, so there always is a
   victim; and it is the way whose last update lies longest ago (`victim_oldest`). -/
namespace SandboxPredictor

/-- What `update_replacement_state` is told of an access. -/
structure Touch where
  cpu : Nat
  fullAddr : Word
  ip : Word
  victimAddr : Word
  type : AccessType
  hit : Bool

/-- `find_victim` and `update_replacement_state` of a cache with `s + 1` sets of `w + 1`
ways; `none` is a failed assertion. -/
class Replacement (ρ : Type) (s w : outParam Nat) where
  victim : ρ → Fin (s + 1) → (Fin (w + 1) → Bool) → Option (Fin (w + 1) × ρ)
  update : ρ → Fin (s + 1) → Fin (w + 1) → Touch → Option ρ

/-- The assertion of the policies of the last level: writebacks have no `ip`. -/
def Touch.Plain (t : Touch) : Prop := t.type = .WRITEBACK → t.ip = 0#64

instance (t : Touch) : Decidable t.Plain :=
  inferInstanceAs (Decidable (t.type = .WRITEBACK → t.ip = 0#64))

/-- A policy whose assertions hold, with what it keeps. -/
structure ReplacementLaw (ρ : Type) {s w : Nat} [Replacement ρ s w] where
  inv : ρ → Prop
  victim : ∀ {r : ρ} (set : Fin (s + 1)) (valid : Fin (w + 1) → Bool), inv r →
    ∃ way r', Replacement.victim r set valid = some (way, r') ∧ inv r'
  update : ∀ {r : ρ} (set : Fin (s + 1)) (way : Fin (w + 1)) {t : Touch}, inv r → t.Plain →
    ∃ r', Replacement.update r set way t = some r' ∧ inv r'

/-- The `lru` fields of the blocks. -/
structure LRU (s w : Nat) where
  lru : Fin (s + 1) → Fin (w + 1) → Nat

namespace LRU

variable {s w : Nat}

/-- As the constructor of `CACHE` sets them. -/
def new (s w : Nat) : LRU s w := ⟨fun _ way => way.val⟩

/-- `lru_victim`: an invalid line first. -/
def lruVictim (r : LRU s w) (set : Fin (s + 1)) (valid : Fin (w + 1) → Bool) :
    Option (Fin (w + 1)) :=
  match KeyTable.find id valid false with
  | some way => some way
  | none => KeyTable.find id (r.lru set) w

/-- `lru_update`: the way is promoted to the MRU position. -/
def lruUpdate (r : LRU s w) (set : Fin (s + 1)) (way : Fin (w + 1)) : LRU s w :=
  ⟨Function.update r.lru set fun i =>
    if i = way then 0 else if r.lru set i < r.lru set way then r.lru set i + 1 else r.lru set i⟩

/-- A writeback hit does not update the state. -/
def ignored (t : Touch) : Bool := t.type = .WRITEBACK && t.hit

def updateReplacementState (r : LRU s w) (set : Fin (s + 1)) (way : Fin (w + 1)) (t : Touch) :
    LRU s w :=
  if ignored t then r else r.lruUpdate set way

/-- `find_victim`, `update_replacement_state`: the policy of all caches but the last. -/
instance : Replacement (LRU s w) s w where
  victim r set valid := (r.lruVictim set valid).map fun way => (way, r)
  update r set way t := some (r.updateReplacementState set way t)

end LRU

/-- `lru.llc_repl`: the same for the last level, with its assertion. -/
structure LlcLRU (s w : Nat) where
  base : LRU s w

instance {s w : Nat} : Replacement (LlcLRU s w) s w where
  victim r set valid := (r.base.lruVictim set valid).map fun way => (way, r)
  update r set way t :=
    if t.Plain then some ⟨r.base.updateReplacementState set way t⟩ else none

namespace LRU

variable {s w : Nat}

/-! ## The order of a set -/

/-- The `lru` fields of a set number the ways of `L`. -/
abbrev Orders (r : LRU s w) (set : Fin (s + 1)) (L : List (Fin (w + 1))) : Prop :=
  Recency.Ranked (fun _ => True) id (r.lru set) L

/-- Each set has an order. -/
def Ordered (r : LRU s w) : Prop := ∀ set, ∃ L, r.Orders set L

variable {r : LRU s w} {set set' : Fin (s + 1)} {L : List (Fin (w + 1))} {way : Fin (w + 1)}

theorem orders_new (set : Fin (s + 1)) : (new s w).Orders set (List.finRange (w + 1)) :=
  Recency.Ranked.finRange (w + 1)

theorem Orders.length (h : r.Orders set L) : L.length = w + 1 :=
  (h.full_iff.2 fun _ => trivial).trans (Fintype.card_fin (w + 1))

/-- The way that is promoted comes to the front. -/
theorem Orders.lruUpdate (h : r.Orders set L) (way : Fin (w + 1)) :
    (r.lruUpdate set way).Orders set (way :: L.erase way) := by
  have hself : (r.lruUpdate set way).lru set = fun i =>
      if i = way then 0
      else if r.lru set i < r.lru set way then r.lru set i + 1 else r.lru set i :=
    Function.update_self ..
  refine h.bump trivial ?_ ?_
  · rw [hself]
    simp
  · intro j _ hj
    rw [hself]
    simp [hj]

/-- The other sets stay as they are. -/
theorem Orders.lruUpdate_of_ne (h : r.Orders set' L) (hne : set' ≠ set) (way : Fin (w + 1)) :
    (r.lruUpdate set way).Orders set' L := by
  have hother : (r.lruUpdate set way).lru set' = r.lru set' := Function.update_of_ne hne ..
  rw [Orders, hother]
  exact h

/-- A set has a victim: the last of its order, unless a line is invalid. -/
theorem Orders.lruVictim (h : r.Orders set L) (valid : Fin (w + 1) → Bool) :
    ∃ way, r.lruVictim set valid = some way
      ∧ (valid way = false ∨ (∀ i, valid i = true) ∧ L.getLast? = some way) := by
  unfold LRU.lruVictim
  cases hfree : KeyTable.find id valid false with
  | some way => exact ⟨way, rfl, Or.inl (KeyTable.key_of_find hfree)⟩
  | none =>
    have hall : ∀ i, valid i = true := by
      intro i
      exact Bool.eq_true_of_not_eq_false (KeyTable.find_eq_none.1 hfree i)
    obtain ⟨i, hi⟩ := h.exists_oldest (fun _ => trivial) (Fintype.card_fin (w + 1))
    obtain ⟨way, hway⟩ : ∃ way, KeyTable.find id (r.lru set) w = some way :=
      KeyTable.find_isSome i hi
    have hage : r.lru set way = w := KeyTable.key_of_find hway
    refine ⟨way, hway, Or.inr ⟨hall, ?_⟩⟩
    calc L.getLast? = L[L.length - 1]? := List.getLast?_eq_getElem?
      _ = L[r.lru set way]? := by rw [h.length, Nat.add_sub_cancel, hage]
      _ = some way := h.get way trivial

theorem Ordered.lruUpdate (h : r.Ordered) (set : Fin (s + 1)) (way : Fin (w + 1)) :
    (r.lruUpdate set way).Ordered := by
  intro set'
  obtain ⟨L, hL⟩ := h set'
  by_cases hset : set' = set
  · subst hset
    exact ⟨_, hL.lruUpdate way⟩
  · exact ⟨_, hL.lruUpdate_of_ne hset way⟩

theorem ordered_new : (new s w).Ordered := fun set => ⟨_, orders_new set⟩

theorem Ordered.updateReplacementState (h : r.Ordered) (set : Fin (s + 1)) (way : Fin (w + 1))
    (t : Touch) : (r.updateReplacementState set way t).Ordered := by
  unfold LRU.updateReplacementState
  split
  · exact h
  · exact h.lruUpdate set way

theorem Ordered.exists_victim (h : r.Ordered) (set : Fin (s + 1)) (valid : Fin (w + 1) → Bool) :
    ∃ way, r.lruVictim set valid = some way := by
  obtain ⟨L, hL⟩ := h set
  obtain ⟨way, hway, -⟩ := hL.lruVictim valid
  exact ⟨way, hway⟩

/-- There always is a victim. -/
def law (s w : Nat) : ReplacementLaw (LRU s w) where
  inv := Ordered
  victim := by
    intro r set valid h
    obtain ⟨way, hway⟩ := h.exists_victim set valid
    exact ⟨way, r, congrArg (Option.map fun way => (way, r)) hway, h⟩
  update := by
    intro r set way t h _
    exact ⟨_, rfl, h.updateReplacementState set way t⟩

/-! ## What is replaced -/

/-- An access to the array, as the policy sees it. -/
structure Access (s w : Nat) where
  set : Fin (s + 1)
  way : Fin (w + 1)
  touch : Touch

def step (r : LRU s w) (a : Access s w) : Unit × LRU s w :=
  ((), r.updateReplacementState a.set a.way a.touch)

/-- The state after the accesses `tr` to a new cache. -/
abbrev after (tr : List (Access s w)) : LRU s w := Mealy.run step (new s w) tr

/-- The ways of a set in the order in which they were promoted, at first the last one, the
one before it, and so on. -/
def history (set : Fin (s + 1)) (tr : List (Access s w)) : List (Fin (w + 1)) :=
  (List.finRange (w + 1)).reverse
    ++ (tr.filter fun a => decide (a.set = set) && !ignored a.touch).map Access.way

theorem history_snoc (set : Fin (s + 1)) (tr : List (Access s w)) (a : Access s w) :
    history set (tr ++ [a]) = history set tr
      ++ (if a.set = set ∧ ignored a.touch = false then [a.way] else []) := by
  have hone : ([a].filter fun a => decide (a.set = set) && !ignored a.touch).map Access.way
      = if a.set = set ∧ ignored a.touch = false then [a.way] else [] := by
    by_cases hset : a.set = set
    · cases hign : ignored a.touch <;> simp [hset, hign]
    · simp [hset]
  rw [history, history, List.filter_append, List.map_append, hone, List.append_assoc]

theorem recent_finRange (n : Nat) :
    Recency.recent (List.finRange n).reverse = List.finRange n := by
  unfold Recency.recent
  rw [(List.nodup_reverse.2 (List.nodup_finRange n)).dedup, List.reverse_reverse]

/-- The order of a set is that of the last promotions. -/
theorem orders_after (set : Fin (s + 1)) (tr : List (Access s w)) :
    (after tr).Orders set (Recency.recent (history set tr)) := by
  refine Mealy.run_induction
    (P := fun tr r => LRU.Orders r set (Recency.recent (history set tr))) ?_ ?_ tr
  · have hinit : history set ([] : List (Access s w)) = (List.finRange (w + 1)).reverse :=
      List.append_nil _
    rw [hinit, recent_finRange]
    exact orders_new set
  · intro tr r a h
    rw [history_snoc]
    change (r.updateReplacementState a.set a.way a.touch).Orders set _
    unfold LRU.updateReplacementState
    by_cases hset : a.set = set
    · cases hign : ignored a.touch with
      | true => simpa [hset, hign] using h
      | false =>
        have hone : (if a.set = set ∧ false = false then [a.way] else []) = [a.way] :=
          if_pos ⟨hset, rfl⟩
        rw [hone, Recency.recent_snoc, if_neg Bool.false_ne_true, hset]
        exact h.lruUpdate a.way
    · have hnone : (if a.set = set ∧ ignored a.touch = false then [a.way] else []) = [] :=
        if_neg fun hc => hset hc.1
      rw [hnone, List.append_nil]
      split
      · exact h
      · exact h.lruUpdate_of_ne (Ne.symm hset) a.way

/-- The `lru` fields of a set are the numbers from 0 to `w`, each once. -/
def Permuted (r : LRU s w) (set : Fin (s + 1)) : Prop :=
  Function.Injective (r.lru set) ∧ ∀ way, r.lru set way ≤ w

theorem Orders.permuted (h : r.Orders set L) : r.Permuted set := by
  refine ⟨?_, ?_⟩
  · intro i j hij
    have hi := h.get i trivial
    have hj := h.get j trivial
    rw [hij] at hi
    exact Option.some.inj (hi.symm.trans hj)
  · intro way
    obtain ⟨hlt, -⟩ := List.getElem?_eq_some_iff.1 (h.get way trivial)
    rw [h.length] at hlt
    exact Nat.le_of_lt_succ hlt

/-- **The victim is the least recently used.** After any accesses, in whatever sets, the `lru`
fields of a set are a permutation and it has a victim: an invalid line, or, when all its
lines are valid, the way whose last promotion lies longest ago. -/
theorem victim_oldest (tr : List (Access s w)) (set : Fin (s + 1)) (valid : Fin (w + 1) → Bool) :
    (after tr).Permuted set ∧ ∃ way, (after tr).lruVictim set valid = some way
      ∧ (valid way = false ∨ (∀ i, valid i = true) ∧
          ∀ i, Recency.lastAccess (history set tr) way ≤ Recency.lastAccess (history set tr) i) := by
  have horder := orders_after set tr
  refine ⟨horder.permuted, ?_⟩
  obtain ⟨way, hway, hfree | ⟨hall, hlast⟩⟩ := horder.lruVictim valid
  · exact ⟨way, hway, Or.inl hfree⟩
  · refine ⟨way, hway, Or.inr ⟨hall, ?_⟩⟩
    intro i
    have hpair := Recency.recent_pairwise (history set tr)
    have hi : i ∈ Recency.recent (history set tr) := horder.key_mem (i := i) trivial
    obtain ⟨ys, hys⟩ := List.getLast?_eq_some_iff.1 hlast
    rw [hys] at hpair hi
    rcases List.mem_append.1 hi with hi | hi
    · exact Nat.le_of_lt ((List.pairwise_append.1 hpair).2.2 i hi way (List.mem_singleton_self way))
    · rw [List.mem_singleton.1 hi]

end LRU

/-- The same for the last level. -/
def LlcLRU.law (s w : Nat) : ReplacementLaw (LlcLRU s w) where
  inv r := r.base.Ordered
  victim := by
    intro r set valid h
    obtain ⟨way, hway⟩ := h.exists_victim set valid
    exact ⟨way, r, congrArg (Option.map fun way => (way, r)) hway, h⟩
  update := by
    intro r set way t h ht
    exact ⟨_, if_pos ht, h.updateReplacementState set way t⟩

end SandboxPredictor
