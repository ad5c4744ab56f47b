import SandboxPredictor.ChampSim.Replacement

/- Re-reference interval prediction, `replacement/srrip.llc_repl`, and what the three
   policies of the last level that predict so have in common: the `rrpv` fields and the loop
   of `llc_find_victim`, which makes the blocks of a set older until one has `maxRRPV`.

   Over it a policy that ages nothing: a block has a deadline on the clock of its set, and
   the block with the earliest deadline is replaced, which sets the clock to that deadline.
   The code picks the same victims in every run (`evicts_earliest`). -/
namespace SandboxPredictor

/-! ## Calls of a policy -/

/-- A call of `find_victim` or of `update_replacement_state`. -/
inductive PolicyCall (s w : Nat) where
  | victim (set : Fin (s + 1)) (valid : Fin (w + 1) → Bool)
  | update (set : Fin (s + 1)) (way : Fin (w + 1)) (t : Touch)

/-- One call, with the victim it finds; no answer is a failed assertion. -/
def Replacement.call {ρ : Type} {s w : Nat} [Replacement ρ s w] (r : ρ) :
    PolicyCall s w → Option (Option (Fin (w + 1))) × ρ
  | .victim set valid =>
    match Replacement.victim r set valid with
    | none => (none, r)
    | some (way, r') => (some (some way), r')
  | .update set way t =>
    match Replacement.update r set way t with
    | none => (none, r)
    | some r' => (some none, r')

/-! ## The values of the blocks -/

def maxRRPV : Nat := 3

/-- The `rrpv` fields. -/
structure Rrip (s w : Nat) where
  rrpv : Fin (s + 1) → Fin (w + 1) → Nat

namespace Rrip

variable {s w : Nat}

/-- As `llc_initialize_replacement` sets them. -/
def new (s w : Nat) : Rrip s w := ⟨fun _ _ => maxRRPV⟩

/-- `rrpv[set][way] = value`. -/
def put (r : Rrip s w) (set : Fin (s + 1)) (way : Fin (w + 1)) (value : Nat) : Rrip s w :=
  ⟨Function.update r.rrpv set (Function.update (r.rrpv set) way value)⟩

/-- All blocks of a set older by `k`. -/
def raise (r : Rrip s w) (set : Fin (s + 1)) (k : Nat) : Rrip s w :=
  ⟨Function.update r.rrpv set fun i => r.rrpv set i + k⟩

/-- `llc_find_victim`: at most so many rounds of its loop, and none when it has not ended
then. -/
def findVictim (set : Fin (s + 1)) : Nat → Rrip s w → Option (Fin (w + 1) × Rrip s w)
  | 0, _ => none
  | rounds + 1, r =>
    match KeyTable.find id (r.rrpv set) maxRRPV with
    | some way => some (way, r)
    | none => findVictim set rounds (r.raise set 1)

/-- `llc_find_victim`, which is the same in the three policies. -/
def llcFindVictim (r : Rrip s w) (set : Fin (s + 1)) : Option (Fin (w + 1) × Rrip s w) :=
  findVictim set (maxRRPV + 1) r

/-- No value exceeds `maxRRPV`, so that the loop ends and no `uint32_t` overflows. -/
def Bounded (r : Rrip s w) : Prop := ∀ set way, r.rrpv set way ≤ maxRRPV

variable {r : Rrip s w} {set t : Fin (s + 1)} {way v : Fin (w + 1)} {k value : Nat}

@[simp] theorem put_self : (r.put set way value).rrpv set way = value := by
  simp [put]

theorem put_of_ne (h : ¬ (t = set ∧ v = way)) : (r.put set way value).rrpv t v = r.rrpv t v := by
  by_cases ht : t = set
  · subst ht
    have hv : v ≠ way := fun hv => h ⟨rfl, hv⟩
    simp [put, hv]
  · simp [put, ht]

@[simp] theorem raise_self : (r.raise set k).rrpv set v = r.rrpv set v + k := by
  simp [raise]

theorem raise_of_ne (h : t ≠ set) : (r.raise set k).rrpv t v = r.rrpv t v := by
  simp [raise, h]

theorem raise_zero (r : Rrip s w) (set : Fin (s + 1)) : r.raise set 0 = r := by
  unfold raise
  simp

theorem raise_raise (a b : Nat) : (r.raise set a).raise set b = r.raise set (a + b) := by
  unfold raise
  simp [Nat.add_assoc]

theorem bounded_new : (new s w).Bounded := fun _ _ => Nat.le_refl _

theorem Bounded.put (h : r.Bounded) (hvalue : value ≤ maxRRPV) : (r.put set way value).Bounded := by
  intro t v
  by_cases htv : t = set ∧ v = way
  · obtain ⟨rfl, rfl⟩ := htv
    rw [put_self]
    exact hvalue
  · rw [put_of_ne htv]
    exact h t v

theorem Bounded.raise (h : r.Bounded) (hk : ∀ i, r.rrpv set i + k ≤ maxRRPV) :
    (r.raise set k).Bounded := by
  intro t v
  by_cases ht : t = set
  · subst ht
    rw [raise_self]
    exact hk v
  · rw [raise_of_ne ht]
    exact h t v

/-- What the loop of `llc_find_victim` does: it raises the values of the set as far as it can
and stops at the first block that had the greatest one. -/
structure Found (r : Rrip s w) (set : Fin (s + 1)) (way : Fin (w + 1)) (k : Nat) : Prop where
  top : r.rrpv set way + k = maxRRPV
  max : ∀ i, r.rrpv set i + k ≤ maxRRPV
  first : ∀ i, i < way → r.rrpv set i < r.rrpv set way

theorem findVictim_spec {rounds : Nat} (h : r.Bounded)
    (hend : ∃ i, maxRRPV < rounds + r.rrpv set i) :
    ∃ way k, findVictim set rounds r = some (way, r.raise set k) ∧ r.Found set way k := by
  induction rounds generalizing r with
  | zero =>
    obtain ⟨i, hi⟩ := hend
    have hle : r.rrpv set i ≤ maxRRPV := h set i
    omega
  | succ rounds ih =>
    rw [findVictim]
    cases hfind : KeyTable.find id (r.rrpv set) maxRRPV with
    | some way =>
      have htop : r.rrpv set way = maxRRPV := KeyTable.key_of_find hfind
      refine ⟨way, 0, by rw [raise_zero], ⟨htop, h set, ?_⟩⟩
      intro i hi
      have hne : r.rrpv set i ≠ maxRRPV := KeyTable.find_first hfind hi
      have hle : r.rrpv set i ≤ maxRRPV := h set i
      omega
    | none =>
      -- no block has the greatest value, so all of them can get older
      have hlt : ∀ i, r.rrpv set i + 1 ≤ maxRRPV := by
        intro i
        have hne : r.rrpv set i ≠ maxRRPV := KeyTable.find_eq_none.1 hfind i
        have hle : r.rrpv set i ≤ maxRRPV := h set i
        omega
      have hend' : ∃ i, maxRRPV < rounds + (r.raise set 1).rrpv set i := by
        obtain ⟨i, hi⟩ := hend
        refine ⟨i, ?_⟩
        rw [raise_self]
        omega
      obtain ⟨way, k, hloop, hfound⟩ := ih (h.raise hlt) hend'
      refine ⟨way, 1 + k, ?_, ?_, ?_, ?_⟩
      · dsimp only
        rw [hloop, raise_raise]
      · have htop := hfound.top
        rw [raise_self] at htop
        omega
      · intro i
        have hmax := hfound.max i
        rw [raise_self] at hmax
        omega
      · intro i hi
        have hfirst := hfound.first i hi
        rw [raise_self, raise_self] at hfirst
        omega

/-- The loop ends, after `maxRRPV` rounds without a victim at most. -/
theorem llcFindVictim_spec (h : r.Bounded) (set : Fin (s + 1)) :
    ∃ way k, r.llcFindVictim set = some (way, r.raise set k) ∧ r.Found set way k :=
  findVictim_spec h ⟨0, by omega⟩

theorem Bounded.llcFindVictim (h : r.Bounded) (set : Fin (s + 1)) :
    ∃ way r', r.llcFindVictim set = some (way, r') ∧ r'.Bounded := by
  obtain ⟨way, k, hvictim, hfound⟩ := llcFindVictim_spec h set
  exact ⟨way, _, hvictim, h.raise hfound.max⟩

/-- The victim of a policy that keeps other state beside the values. -/
theorem Bounded.victim {ρ : Type} (h : r.Bounded) (set : Fin (s + 1)) (f : Rrip s w → ρ) :
    ∃ way base, (r.llcFindVictim set).map (fun (way, base) => (way, f base)) = some (way, f base)
      ∧ base.Bounded := by
  obtain ⟨way, base, hvictim, hbounded⟩ := h.llcFindVictim set
  exact ⟨way, base, by rw [hvictim]; rfl, hbounded⟩

/-- A search for a victim changes nothing else. -/
theorem call_victim {ρ : Type} [Replacement ρ s w] (f : Rrip s w → ρ)
    {valid : Fin (w + 1) → Bool}
    (hcode : Replacement.victim (f r) set valid
      = (r.llcFindVictim set).map fun (way, base) => (way, f base)) :
    ∃ base, (Replacement.call (f r) (.victim set valid)).2 = f base := by
  rw [Replacement.call, hcode]
  cases r.llcFindVictim set with
  | none => exact ⟨r, rfl⟩
  | some found => exact ⟨found.2, rfl⟩

end Rrip

/-! ## The code -/

/-- `srrip.llc_repl`. -/
structure SRRIP (s w : Nat) where
  base : Rrip s w

namespace SRRIP

variable {s w : Nat}

def new (s w : Nat) : SRRIP s w := ⟨Rrip.new s w⟩

instance : Replacement (SRRIP s w) s w where
  victim r set _ := (r.base.llcFindVictim set).map fun (way, base) => (way, ⟨base⟩)
  update r set way t :=
    if t.Plain then some ⟨r.base.put set way (if t.hit then 0 else maxRRPV - 1)⟩ else none

theorem value_le (hit : Bool) : (if hit then 0 else maxRRPV - 1) ≤ maxRRPV := by
  cases hit <;> decide

/-- There always is a victim. -/
def law (s w : Nat) : ReplacementLaw (SRRIP s w) where
  inv r := r.base.Bounded
  victim := by
    intro r set valid h
    obtain ⟨way, base, hvictim, hbounded⟩ := Rrip.Bounded.victim h set fun base => SRRIP.mk base
    exact ⟨way, ⟨base⟩, hvictim, hbounded⟩
  update := by
    intro r set way t h ht
    exact ⟨_, if_pos ht, Rrip.Bounded.put h (value_le t.hit)⟩

end SRRIP

/-! ## Deadlines -/

/-- For each set a clock, and for each block the time at which it is due. -/
structure Deadlines (s w : Nat) where
  clock : Fin (s + 1) → Nat
  due : Fin (s + 1) → Fin (w + 1) → Nat

namespace Deadlines

variable {s w : Nat}

def new (s w : Nat) : Deadlines s w := ⟨fun _ => 0, fun _ _ => 0⟩

/-- The first of the blocks that are due earliest. -/
def earliest (due : Fin (w + 1) → Nat) : Option (Fin (w + 1)) :=
  (List.finRange (w + 1)).find? fun i => decide (∀ j, due i ≤ due j)

/-- The time that passes until a block is due: a block that was hit is due later than one
that was filled. -/
def grace (hit : Bool) : Nat := if hit then 3 else 1

/-- A victim is the block due earliest, and its time has come; a block that is used gets a
new deadline. -/
def call (d : Deadlines s w) : PolicyCall s w → Option (Option (Fin (w + 1))) × Deadlines s w
  | .victim set _ =>
    match earliest (d.due set) with
    | none => (none, d)
    | some way => (some (some way), { d with clock := Function.update d.clock set (d.due set way) })
  | .update set way t =>
    if t.Plain then
      (some none, { d with
        due := Function.update d.due set
          (Function.update (d.due set) way (d.clock set + grace t.hit)) })
    else (none, d)

/-- How the first of the least is found. -/
theorem earliest_eq {due : Fin (w + 1) → Nat} {way : Fin (w + 1)} (hmin : ∀ j, due way ≤ due j)
    (hfirst : ∀ i, i < way → due way < due i) : earliest due = some way := by
  unfold earliest
  rw [List.find?_eq_some_iff_getElem]
  refine ⟨decide_eq_true hmin, way.val, ?_, ?_, ?_⟩
  · rw [List.length_finRange]
    exact way.isLt
  · rw [List.getElem_finRange]
    rfl
  · intro j hj
    rw [List.getElem_finRange]
    have hbefore := hfirst ⟨j, by omega⟩ hj
    simp only [Bool.not_eq_true', decide_eq_false_iff_not, not_forall, not_le]
    exact ⟨way, hbefore⟩

end Deadlines

/-! ## The code picks the block due earliest -/

namespace SRRIP

variable {s w : Nat} {r : SRRIP s w} {d : Deadlines s w}

/-- A block is due when its value reaches `maxRRPV`. -/
structure Agree (r : SRRIP s w) (d : Deadlines s w) : Prop where
  bounded : r.base.Bounded
  due : ∀ set way, d.due set way + r.base.rrpv set way = d.clock set + maxRRPV

theorem agree_new : Agree (new s w) (Deadlines.new s w) where
  bounded := Rrip.bounded_new
  due := fun _ _ => rfl

theorem Agree.victim (h : Agree r d) (set : Fin (s + 1)) (valid : Fin (w + 1) → Bool) :
    (Replacement.call r (.victim set valid)).1 = (d.call (.victim set valid)).1
      ∧ Agree (Replacement.call r (.victim set valid)).2 (d.call (.victim set valid)).2 := by
  obtain ⟨way, k, hvictim, hfound⟩ := Rrip.llcFindVictim_spec h.bounded set
  have hway := h.due set way
  have htop := hfound.top
  -- a greater value is an earlier deadline, and ties go to the first way in both
  have hearliest : Deadlines.earliest (d.due set) = some way := by
    apply Deadlines.earliest_eq
    · intro j
      have hj := h.due set j
      have hmax := hfound.max j
      omega
    · intro i hi
      have hi' := h.due set i
      have hfirst := hfound.first i hi
      omega
  have hcode : Replacement.victim r set valid = some (way, ⟨r.base.raise set k⟩) := by
    change Option.map _ (r.base.llcFindVictim set) = _
    rw [hvictim]
    rfl
  rw [Replacement.call, hcode, Deadlines.call, hearliest]
  -- the code makes all blocks older by as much as the clock goes on
  refine ⟨rfl, h.bounded.raise hfound.max, ?_⟩
  intro t v
  dsimp only
  by_cases ht : t = set
  · subst ht
    have hv := h.due t v
    rw [Rrip.raise_self, Function.update_self]
    omega
  · rw [Rrip.raise_of_ne ht, Function.update_of_ne ht]
    exact h.due t v

theorem grace_add (hit : Bool) :
    Deadlines.grace hit + (if hit then 0 else maxRRPV - 1) = maxRRPV := by
  cases hit <;> rfl

theorem Agree.update (h : Agree r d) (set : Fin (s + 1)) (way : Fin (w + 1)) (t : Touch) :
    (Replacement.call r (.update set way t)).1 = (d.call (.update set way t)).1
      ∧ Agree (Replacement.call r (.update set way t)).2 (d.call (.update set way t)).2 := by
  rw [Replacement.call, Deadlines.call]
  by_cases ht : t.Plain
  · have hcode : Replacement.update r set way t
        = some ⟨r.base.put set way (if t.hit then 0 else maxRRPV - 1)⟩ := if_pos ht
    rw [hcode, if_pos ht]
    refine ⟨rfl, h.bounded.put (value_le t.hit), ?_⟩
    intro u v
    dsimp only
    by_cases huv : u = set ∧ v = way
    · obtain ⟨rfl, rfl⟩ := huv
      have hgrace := grace_add t.hit
      rw [Function.update_self, Function.update_self, Rrip.put_self]
      omega
    · rw [Rrip.put_of_ne huv]
      by_cases hu : u = set
      · subst hu
        have hv : v ≠ way := fun hv => huv ⟨rfl, hv⟩
        rw [Function.update_self, Function.update_of_ne hv]
        exact h.due u v
      · rw [Function.update_of_ne hu]
        exact h.due u v
  · have hcode : Replacement.update r set way t = none := if_neg ht
    rw [hcode, if_neg ht]
    exact ⟨rfl, h⟩

/-- **The block that is due earliest is replaced.** In every run of calls SRRIP picks the
victims that deadlines give. -/
theorem evicts_earliest (tr : List (PolicyCall s w)) :
    Mealy.outputs Replacement.call (new s w) tr
      = Mealy.outputs Deadlines.call (Deadlines.new s w) tr := by
  refine (Mealy.simulation (R := Agree) ?_ tr _ _ agree_new).1
  intro r d c h
  cases c with
  | victim set valid => exact h.victim set valid
  | update set way t => exact h.update set way t

end SRRIP

end SandboxPredictor
