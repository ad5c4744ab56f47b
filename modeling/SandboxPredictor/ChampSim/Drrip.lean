import SandboxPredictor.ChampSim.Rrip
import SandboxPredictor.Word

/- Dynamic re-reference interval prediction, `replacement/drrip.llc_repl`: two policies for
   what is filled, and for each core a few sets that always follow the one or the other and
   whose misses decide which of them all other sets follow.

   The sets are drawn once and are all different (`leaders_exact`); `PSEL` of a core counts
   the misses of its leader sets and of nothing else (`psel_counts_leaders`); and of the blocks
   that the bimodal policy fills, one in 32 is kept for long (`bimodal_one_in_max`). -/
namespace SandboxPredictor

/-! ## Sets drawn at random -/

/-- `rand_seed * 1103515245 + 12345`. -/
def nextSeed (seed : Word) : Word := seed * 1103515245#64 + 12345#64

/-- `((unsigned) ((rand_seed / 65536) % max_rand)) % my_set`. -/
def drawSet (sets : Nat) (seed : Word) : Nat := seed.toNat / 65536 % 1048576 % sets

/-- The loop of `llc_initialize_replacement`: so many sets still to draw, each again as long
as it is one of those before; none when the draws do not suffice. -/
def chooseSets (sets : Nat) : Nat → Nat → Word → List Nat → Option (List Nat)
  | _, 0, _, chosen => some chosen
  | 0, _ + 1, _, _ => none
  | draws + 1, todo + 1, seed, chosen =>
    if drawSet sets (nextSeed seed) ∈ chosen then
      chooseSets sets draws (todo + 1) (nextSeed seed) chosen
    else
      chooseSets sets draws todo (nextSeed seed) (chosen ++ [drawSet sets (nextSeed seed)])

/-- Different sets, as many as asked for. -/
structure Drawn (sets count : Nat) (l : List Nat) : Prop where
  nodup : l.Nodup
  length : l.length = count
  lt : ∀ x ∈ l, x < sets

theorem chooseSets_drawn {sets draws todo : Nat} {seed : Word} {chosen l : List Nat}
    (hpos : 0 < sets) (hchosen : Drawn sets chosen.length chosen)
    (h : chooseSets sets draws todo seed chosen = some l) :
    Drawn sets (chosen.length + todo) l := by
  induction draws generalizing todo seed chosen with
  | zero =>
    cases todo with
    | zero =>
      obtain rfl := Option.some.inj h
      exact hchosen
    | succ todo => cases h
  | succ draws ih =>
    cases todo with
    | zero =>
      obtain rfl := Option.some.inj h
      exact hchosen
    | succ todo =>
      rw [chooseSets] at h
      split at h
      · exact ih hchosen h
      · next hnew =>
        have hlength : (chosen ++ [drawSet sets (nextSeed seed)]).length = chosen.length + 1 := by
          simp
        have hnext := ih ⟨?_, rfl, ?_⟩ h
        · rw [hlength] at hnext
          have hcount : chosen.length + 1 + todo = chosen.length + (todo + 1) := by omega
          exact hcount ▸ hnext
        · apply List.Nodup.append hchosen.nodup (List.nodup_singleton _)
          simpa [List.disjoint_singleton] using hnew
        · intro x hx
          rcases List.mem_append.1 hx with hx | hx
          · exact hchosen.lt x hx
          · rw [List.mem_singleton.1 hx]
            exact Nat.mod_lt _ hpos

/-- Of all sets as many are in a part of the list as the part has entries. -/
theorem Drawn.count_part {sets count : Nat} {l part : List Nat} (h : Drawn sets count l)
    (hpart : part.Sublist l) (P : Nat → Prop) [DecidablePred P] (hP : ∀ x, P x ↔ x ∈ part) :
    ((List.range sets).filter fun x => P x).length = part.length := by
  -- both lists have no set twice, so they are the same but for the order
  have hperm : ((List.range sets).filter fun x => P x).Perm part := by
    rw [List.perm_ext_iff_of_nodup (List.nodup_range.filter _) (h.nodup.sublist hpart)]
    intro x
    rw [List.mem_filter, List.mem_range, decide_eq_true_eq, hP]
    exact ⟨And.right, fun hx => ⟨h.lt x (hpart.subset hx), hx⟩⟩
  exact hperm.length_eq

theorem chooseSets_start {sets draws count : Nat} {l : List Nat} (hpos : 0 < sets)
    (h : chooseSets sets draws count 1#64 [] = some l) : Drawn sets count l := by
  have hdrawn := chooseSets_drawn hpos ⟨List.nodup_nil, rfl, fun _ hx => nomatch hx⟩ h
  rwa [List.length_nil, Nat.zero_add] at hdrawn

/-! ## The code -/

def NUM_POLICY : Nat := 2

def SDM_SIZE : Nat := 32

def TOTAL_SDM_SETS : Nat := NUM_CPUS * NUM_POLICY * SDM_SIZE

def BIP_MAX : Nat := 32

def PSEL_MAX : Nat := 1023

def PSEL_THRS : Nat := PSEL_MAX / 2

/-- The state of `drrip.llc_repl`. -/
structure DRRIP (s w : Nat) where
  base : Rrip s w
  bipCounter : Nat
  PSEL : Nat → Nat
  randSets : List Nat

/-- `is_it_leader`: the policy that a set leads for a core. -/
def isItLeader (randSets : List Nat) (cpu set : Nat) : Option Nat :=
  (((randSets.drop (cpu * NUM_POLICY * SDM_SIZE)).take (NUM_POLICY * SDM_SIZE)).findIdx?
    (· == set)).map (· / SDM_SIZE)

/-- What a miss in a leader set of the bimodal policy (0) or of SRRIP (1) makes of `PSEL`. -/
def duel (psel leader : Nat) : Nat :=
  if leader = 0 then (if 0 < psel then psel - 1 else psel)
  else if psel < PSEL_MAX then psel + 1 else psel

namespace DRRIP

variable {s w : Nat}

def new (s w : Nat) (randSets : List Nat) : DRRIP s w := ⟨Rrip.new s w, 0, fun _ => 0, randSets⟩

/-- A fill that follows the bimodal policy. -/
def fillBIP (r : DRRIP s w) (set : Fin (s + 1)) (way : Fin (w + 1)) : DRRIP s w :=
  let counter := if r.bipCounter + 1 = BIP_MAX then 0 else r.bipCounter + 1
  { r with
    bipCounter := counter
    base := r.base.put set way (if counter = 0 then maxRRPV - 1 else maxRRPV) }

/-- A fill that follows SRRIP. -/
def fillSRRIP (r : DRRIP s w) (set : Fin (s + 1)) (way : Fin (w + 1)) : DRRIP s w :=
  { r with base := r.base.put set way (maxRRPV - 1) }

/-- `llc_update_replacement_state`; `none` is the assertion that a leader leads one of the two
policies. -/
def updateReplacementState (r : DRRIP s w) (set : Fin (s + 1)) (way : Fin (w + 1)) (t : Touch) :
    Option (DRRIP s w) :=
  -- writebacks do not update the state, but they set the value
  if t.type = .WRITEBACK then some { r with base := r.base.put set way (maxRRPV - 1) }
  else if t.hit then some { r with base := r.base.put set way 0 }
  else
    match isItLeader r.randSets t.cpu set with
    | none =>
      some (if PSEL_THRS < r.PSEL t.cpu then r.fillBIP set way else r.fillSRRIP set way)
    | some 0 =>
      some ({ r with PSEL := Function.update r.PSEL t.cpu (duel (r.PSEL t.cpu) 0) }.fillBIP set way)
    | some 1 =>
      some ({ r with
        PSEL := Function.update r.PSEL t.cpu (duel (r.PSEL t.cpu) 1) }.fillSRRIP set way)
    | some _ => none

instance : Replacement (DRRIP s w) s w where
  victim r set _ := (r.base.llcFindVictim set).map fun (way, base) => (way, { r with base := base })
  update r set way t := r.updateReplacementState set way t

/-! ## No assertion fails -/

theorem isItLeader_lt {randSets : List Nat} {cpu set leader : Nat}
    (h : isItLeader randSets cpu set = some leader) : leader < NUM_POLICY := by
  obtain ⟨i, hi, rfl⟩ := Option.map_eq_some_iff.1 h
  obtain ⟨hlt, -⟩ := List.findIdx?_eq_some_iff_getElem.1 hi
  rw [List.length_take] at hlt
  have hi64 : i < NUM_POLICY * SDM_SIZE := Nat.lt_of_lt_of_le hlt (Nat.min_le_left ..)
  exact Nat.div_lt_of_lt_mul (by rwa [Nat.mul_comm])

variable {r : DRRIP s w} {set : Fin (s + 1)} {way : Fin (w + 1)} {t : Touch}

theorem fillBIP_bounded (h : r.base.Bounded) : (r.fillBIP set way).base.Bounded := by
  apply Rrip.Bounded.put h
  split
  · exact Nat.sub_le ..
  · exact Nat.le_refl _

theorem fillSRRIP_bounded (h : r.base.Bounded) : (r.fillSRRIP set way).base.Bounded :=
  Rrip.Bounded.put h (Nat.sub_le ..)

theorem updateReplacementState_bounded (h : r.base.Bounded) (set : Fin (s + 1))
    (way : Fin (w + 1)) (t : Touch) :
    ∃ r', r.updateReplacementState set way t = some r' ∧ r'.base.Bounded := by
  unfold updateReplacementState
  split
  · exact ⟨_, rfl, Rrip.Bounded.put h (Nat.sub_le ..)⟩
  · split
    · exact ⟨_, rfl, Rrip.Bounded.put h (Nat.zero_le _)⟩
    · split
      · refine ⟨_, rfl, ?_⟩
        split
        · exact fillBIP_bounded h
        · exact fillSRRIP_bounded h
      · exact ⟨_, rfl, fillBIP_bounded h⟩
      · exact ⟨_, rfl, fillSRRIP_bounded h⟩
      · next leader h0 h1 hleader =>
        -- the assertion: there are two policies
        have hlt : leader < 2 := isItLeader_lt hleader
        have hne0 : leader ≠ 0 := h0
        have hne1 : leader ≠ 1 := h1
        omega

/-- There always is a victim, and a leader leads one of the two policies. -/
def law (s w : Nat) : ReplacementLaw (DRRIP s w) where
  inv r := r.base.Bounded
  victim := by
    intro r set valid h
    obtain ⟨way, base, hvictim, hbounded⟩ :=
      Rrip.Bounded.victim h set fun base => { r with base := base }
    exact ⟨way, _, hvictim, hbounded⟩
  update := by
    intro r set way t h _
    exact updateReplacementState_bounded h set way t

/-! ## What the leaders decide -/

/-- The policy whose leader set misses for the core, if the call is such a miss. -/
def leaderMiss (randSets : List Nat) (cpu : Nat) : PolicyCall s w → Option Nat
  | .victim _ _ => none
  | .update set _ t =>
    if t.type ≠ .WRITEBACK ∧ t.hit = false ∧ t.cpu = cpu then isItLeader randSets cpu set else none

/-- The call fills a block by the bimodal policy. -/
def fillsBIP (r : DRRIP s w) : PolicyCall s w → Bool
  | .victim _ _ => false
  | .update set _ t =>
    t.type ≠ .WRITEBACK && t.hit = false &&
      match isItLeader r.randSets t.cpu set with
      | none => PSEL_THRS < r.PSEL t.cpu
      | some leader => leader = 0

/-- The call fills a block by the bimodal policy, and not as the first to be replaced. -/
def keepsLong (r : DRRIP s w) (c : PolicyCall s w) : Bool :=
  r.fillsBIP c &&
    match c with
    | .victim _ _ => false
    | .update set way _ => (Replacement.call r c).2.base.rrpv set way < maxRRPV

/-- What a call does to the counters. -/
structure CallSpec (r : DRRIP s w) (c : PolicyCall s w) (r' : DRRIP s w) : Prop where
  randSets : r'.randSets = r.randSets
  PSEL : ∀ cpu, r'.PSEL cpu = (leaderMiss r.randSets cpu c).elim (r.PSEL cpu) (duel (r.PSEL cpu))
  counter : r'.bipCounter
    = if r.fillsBIP c then (if r.bipCounter + 1 = BIP_MAX then 0 else r.bipCounter + 1)
      else r.bipCounter
  value : r.fillsBIP c = true → ∀ set way t, c = .update set way t →
    (r'.base.rrpv set way < maxRRPV ↔ r.bipCounter + 1 = BIP_MAX)

variable {c : PolicyCall s w} {q r' : DRRIP s w}

theorem CallSpec.of_same (hrand : r'.randSets = r.randSets) (hcounter : r'.bipCounter = r.bipCounter)
    (hpsel : ∀ cpu, r'.PSEL cpu = (leaderMiss r.randSets cpu c).elim (r.PSEL cpu) (duel (r.PSEL cpu)))
    (hfills : r.fillsBIP c = false) : CallSpec r c r' where
  randSets := hrand
  PSEL := hpsel
  counter := by
    rw [hfills]
    exact hcounter
  value := by
    intro hc
    rw [hfills] at hc
    cases hc

theorem CallSpec.fillBIP (hrand : q.randSets = r.randSets) (hcounter : q.bipCounter = r.bipCounter)
    (hpsel : ∀ cpu, q.PSEL cpu = (leaderMiss r.randSets cpu (.update set way t)).elim (r.PSEL cpu)
      (duel (r.PSEL cpu)))
    (hfills : r.fillsBIP (.update set way t) = true) :
    CallSpec r (.update set way t) (q.fillBIP set way) where
  randSets := hrand
  PSEL := hpsel
  counter := by
    rw [hfills, ← hcounter]
    rfl
  value := by
    intro _ set' way' t' hc
    obtain ⟨rfl, rfl, rfl⟩ := PolicyCall.update.inj hc
    rw [← hcounter]
    unfold DRRIP.fillBIP
    dsimp only
    rw [Rrip.put_self]
    by_cases hmax : q.bipCounter + 1 = BIP_MAX
    · simp [hmax, maxRRPV]
    · simp [hmax]

/-- A miss in a leader set counts for its core, and for no other. -/
theorem psel_leader (r : DRRIP s w) (way : Fin (w + 1)) {leader : Nat} (hwb : t.type ≠ .WRITEBACK) (hhit : t.hit = false)
    (hleader : isItLeader r.randSets t.cpu set = some leader) (cpu : Nat) :
    Function.update r.PSEL t.cpu (duel (r.PSEL t.cpu) leader) cpu
      = (leaderMiss r.randSets cpu (.update set way t)).elim (r.PSEL cpu) (duel (r.PSEL cpu)) := by
  rw [leaderMiss]
  by_cases hcpu : t.cpu = cpu
  · subst hcpu
    rw [if_pos ⟨hwb, hhit, rfl⟩, hleader, Function.update_self]
    rfl
  · rw [if_neg fun hc => hcpu hc.2.2, Function.update_of_ne (Ne.symm hcpu)]
    rfl

/-- What is no miss in a leader set counts for no core. -/
theorem psel_other (r : DRRIP s w) (way : Fin (w + 1))
    (h : t.type = .WRITEBACK ∨ t.hit = true ∨ isItLeader r.randSets t.cpu set = none) (cpu : Nat) :
    r.PSEL cpu
      = (leaderMiss r.randSets cpu (.update set way t)).elim (r.PSEL cpu) (duel (r.PSEL cpu)) := by
  rw [leaderMiss]
  split
  · next hmiss =>
    obtain ⟨hwb, hhit, rfl⟩ := hmiss
    rcases h with h | h | h
    · exact absurd h hwb
    · rw [hhit] at h
      cases h
    · rw [h]
      rfl
  · rfl

theorem update_spec (r : DRRIP s w) (set : Fin (s + 1)) (way : Fin (w + 1)) (t : Touch) :
    ∃ r', r.updateReplacementState set way t = some r' ∧ CallSpec r (.update set way t) r' := by
  unfold updateReplacementState
  by_cases hwb : t.type = .WRITEBACK
  · rw [if_pos hwb]
    refine ⟨_, rfl, CallSpec.of_same rfl rfl (psel_other r way (Or.inl hwb)) ?_⟩
    simp [fillsBIP, hwb]
  rw [if_neg hwb]
  cases hhit : t.hit with
  | true =>
    refine ⟨_, rfl, CallSpec.of_same rfl rfl (psel_other r way (Or.inr (Or.inl hhit))) ?_⟩
    simp [fillsBIP, hhit]
  | false =>
    rw [if_neg Bool.false_ne_true]
    cases hleader : isItLeader r.randSets t.cpu set with
    | none =>
      refine ⟨_, rfl, ?_⟩
      have hpsel := psel_other r way (Or.inr (Or.inr hleader))
      split
      · next hthrs =>
        refine CallSpec.fillBIP rfl rfl hpsel ?_
        simp [fillsBIP, hwb, hhit, hleader, hthrs]
      · next hthrs =>
        refine CallSpec.of_same rfl rfl hpsel ?_
        simp [fillsBIP, hleader, hthrs]
    | some leader =>
      have hpsel := psel_leader r way hwb hhit hleader
      obtain rfl | rfl : leader = 0 ∨ leader = 1 := by
        have hlt : leader < 2 := isItLeader_lt hleader
        omega
      · refine ⟨_, rfl, CallSpec.fillBIP rfl rfl hpsel ?_⟩
        simp [fillsBIP, hwb, hhit, hleader]
      · refine ⟨_, rfl, CallSpec.of_same rfl rfl hpsel ?_⟩
        simp [fillsBIP, hleader]

/-- **One call.** -/
theorem call_spec (r : DRRIP s w) (c : PolicyCall s w) :
    CallSpec r c (Replacement.call r c).2 := by
  cases c with
  | victim set valid =>
    have hsame : ∃ base, (Replacement.call r (.victim set valid)).2 = { r with base := base } :=
      Rrip.call_victim (fun base => { r with base := base }) rfl
    obtain ⟨base, hbase⟩ := hsame
    rw [hbase]
    exact CallSpec.of_same rfl rfl (fun _ => rfl) rfl
  | update set way t =>
    obtain ⟨r', hupdate, hspec⟩ := update_spec r set way t
    have hcode : Replacement.update r set way t = some r' := hupdate
    rw [Replacement.call, hcode]
    exact hspec

theorem keepsLong_iff (r : DRRIP s w) (c : PolicyCall s w) :
    r.keepsLong c = true ↔ r.fillsBIP c = true ∧ r.bipCounter + 1 = BIP_MAX := by
  cases c with
  | victim set valid => simp [keepsLong, fillsBIP]
  | update set way t =>
    rw [keepsLong, Bool.and_eq_true, decide_eq_true_eq]
    refine and_congr_right ?_
    intro hfills
    exact (call_spec r (.update set way t)).value hfills set way t rfl

/-! ## Over whole runs -/

/-- The policy after the calls `tr`. -/
abbrev after (s w : Nat) (randSets : List Nat) (tr : List (PolicyCall s w)) : DRRIP s w :=
  Mealy.run Replacement.call (new s w randSets) tr

theorem after_randSets (randSets : List Nat) (tr : List (PolicyCall s w)) :
    (after s w randSets tr).randSets = randSets :=
  Mealy.run_invariant (P := fun r : DRRIP s w => r.randSets = randSets)
    (fun r c h => (call_spec r c).randSets.trans h) rfl tr

/-- **`PSEL` counts the misses of the leaders.** In every run `PSEL` of a core is what the
misses of the core in its leader sets make of it, in their order, whatever else happens in
between. -/
theorem psel_counts_leaders (randSets : List Nat) (tr : List (PolicyCall s w)) (cpu : Nat) :
    (after s w randSets tr).PSEL cpu = (tr.filterMap (leaderMiss randSets cpu)).foldl duel 0 := by
  induction tr using List.reverseRecOn with
  | nil => rfl
  | append_singleton tr c ih =>
    have hrun : after s w randSets (tr ++ [c]) = (Replacement.call (after s w randSets tr) c).2 :=
      Mealy.run_snoc tr c
    rw [hrun, (call_spec _ c).PSEL, after_randSets, List.filterMap_append, List.foldl_append, ih]
    cases hmiss : leaderMiss randSets cpu c with
    | none => simp [hmiss]
    | some leader => simp [hmiss]

/-- **One block in 32 is kept.** In every run, of the blocks that the bimodal policy fills
each `BIP_MAX`th is kept for long, and all others are the first to be replaced. -/
theorem bimodal_one_in_max (randSets : List Nat) (tr : List (PolicyCall s w)) :
    (Mealy.observe Replacement.call keepsLong (new s w randSets) tr).count true
      = (Mealy.observe Replacement.call fillsBIP (new s w randSets) tr).count true / BIP_MAX := by
  suffices hall : BIP_MAX
        * (Mealy.observe Replacement.call keepsLong (new s w randSets) tr).count true
        + (after s w randSets tr).bipCounter
          = (Mealy.observe Replacement.call fillsBIP (new s w randSets) tr).count true
      ∧ (after s w randSets tr).bipCounter < BIP_MAX by
    obtain ⟨hsum, hlt⟩ := hall
    have hdiv := Nat.mul_add_div (by decide : 0 < BIP_MAX)
      ((Mealy.observe Replacement.call keepsLong (new s w randSets) tr).count true)
      (after s w randSets tr).bipCounter
    rw [← hsum, hdiv, Nat.div_eq_of_lt hlt]
    rfl
  have hcount : ∀ (l : List Bool) (b : Bool),
      (l ++ [b]).count true = l.count true + if b then 1 else 0 := by
    intro l b
    cases b <;> simp
  induction tr using List.reverseRecOn with
  | nil => exact ⟨rfl, (by decide : 0 < BIP_MAX)⟩
  | append_singleton tr c ih =>
    obtain ⟨hsum, hlt⟩ := ih
    have hrun : after s w randSets (tr ++ [c]) = (Replacement.call (after s w randSets tr) c).2 :=
      Mealy.run_snoc tr c
    have hkeeps := keepsLong_iff (after s w randSets tr) c
    rw [hrun, (call_spec _ c).counter, Mealy.observe_snoc, Mealy.observe_snoc, hcount, hcount]
    cases hfills : (after s w randSets tr).fillsBIP c with
    | false =>
      have hno : (after s w randSets tr).keepsLong c = false := by
        rw [← Bool.not_eq_true, hkeeps, hfills]
        simp
      rw [hno]
      exact ⟨hsum, hlt⟩
    | true =>
      -- the counter is the number of these fills since one was kept
      by_cases hmax : (after s w randSets tr).bipCounter + 1 = BIP_MAX
      · -- the counter starts again
        rw [hkeeps.2 ⟨hfills, hmax⟩]
        simp only [if_true, hmax]
        refine ⟨?_, (by decide : 0 < BIP_MAX)⟩
        rw [Nat.mul_add]
        omega
      · have hno : (after s w randSets tr).keepsLong c = false := by
          rw [← Bool.not_eq_true, hkeeps]
          exact fun hc => hmax hc.2
        rw [hno]
        simp only [if_true, if_neg hmax, if_neg Bool.false_ne_true]
        refine ⟨?_, by omega⟩
        rw [Nat.add_zero, ← hsum, Nat.add_assoc]

/-! ## The leader sets -/

theorem findIdx_eq_some_iff {m : List Nat} (hm : m.Nodup) {x i : Nat} :
    m.findIdx? (· == x) = some i ↔ m[i]? = some x := by
  rw [List.findIdx?_eq_some_iff_getElem, List.getElem?_eq_some_iff]
  refine exists_congr ?_
  intro hi
  refine ⟨fun h => beq_iff_eq.1 h.1, ?_⟩
  intro hx
  refine ⟨beq_iff_eq.2 hx, ?_⟩
  intro j hj hjx
  have hij : j = i := (hm.getElem_inj_iff).1 ((beq_iff_eq.1 hjx).trans hx.symm)
  omega

/-- The sets that lead a policy for a core. -/
def leaderSets (randSets : List Nat) (cpu leader : Nat) : List Nat :=
  (((randSets.drop (cpu * NUM_POLICY * SDM_SIZE)).take (NUM_POLICY * SDM_SIZE)).drop
    (leader * SDM_SIZE)).take SDM_SIZE

theorem isItLeader_iff {randSets : List Nat} (hnodup : randSets.Nodup) {cpu set leader : Nat} :
    isItLeader randSets cpu set = some leader ↔ set ∈ leaderSets randSets cpu leader := by
  have hm : ((randSets.drop (cpu * NUM_POLICY * SDM_SIZE)).take (NUM_POLICY * SDM_SIZE)).Nodup :=
    (hnodup.sublist (List.drop_sublist _ _)).sublist (List.take_sublist _ _)
  rw [isItLeader, leaderSets, Option.map_eq_some_iff, List.mem_iff_getElem?]
  refine ⟨?_, ?_⟩
  · rintro ⟨i, hi, hdiv⟩
    refine ⟨i % SDM_SIZE, ?_⟩
    have hmod : i % SDM_SIZE < SDM_SIZE := Nat.mod_lt _ (by decide)
    have hi' : leader * SDM_SIZE + i % SDM_SIZE = i := by
      rw [← hdiv]
      exact Nat.div_add_mod' i SDM_SIZE
    rw [List.getElem?_take, if_pos hmod, List.getElem?_drop, hi']
    exact (findIdx_eq_some_iff hm).1 hi
  · rintro ⟨j, hj⟩
    rw [List.getElem?_take] at hj
    split at hj
    · next hlt =>
      rw [List.getElem?_drop] at hj
      refine ⟨_, (findIdx_eq_some_iff hm).2 hj, ?_⟩
      rw [Nat.mul_comm, Nat.mul_add_div (by decide : 0 < SDM_SIZE), Nat.div_eq_of_lt hlt,
        Nat.add_zero]
    · cases hj

/-- **The leader sets.** Once `llc_initialize_replacement` has drawn its sets, exactly
`SDM_SIZE` sets of the cache lead each of the two policies for a core. -/
theorem leaders_exact {sets draws : Nat} {randSets : List Nat} (hpos : 0 < sets)
    (h : chooseSets sets draws TOTAL_SDM_SETS 1#64 [] = some randSets) {cpu leader : Nat}
    (hcpu : cpu < NUM_CPUS) (hleader : leader < NUM_POLICY) :
    ((List.range sets).filter fun set => isItLeader randSets cpu set = some leader).length
      = SDM_SIZE := by
  have hdrawn := chooseSets_start hpos h
  have hpart : (leaderSets randSets cpu leader).Sublist randSets :=
    (((List.take_sublist _ _).trans (List.drop_sublist _ _)).trans
      (List.take_sublist _ _)).trans (List.drop_sublist _ _)
  rw [hdrawn.count_part hpart _ fun _ => isItLeader_iff hdrawn.nodup, leaderSets,
    List.length_take, List.length_drop, List.length_take, List.length_drop, hdrawn.length]
  have hcpu' : cpu = 0 := Nat.lt_one_iff.1 hcpu
  have hleader' : leader < 2 := hleader
  subst hcpu'
  simp only [TOTAL_SDM_SETS, NUM_CPUS, NUM_POLICY, SDM_SIZE]
  omega

/-- In the last level cache of one core the sets are drawn after a few repetitions. -/
example :
    ∃ randSets, chooseSets 2048 80 TOTAL_SDM_SETS 1#64 [] = some randSets
      ∧ ((List.range 2048).filter fun set => isItLeader randSets 0 set = some 1).length = 32 := by
  have hdrawn : (chooseSets 2048 80 TOTAL_SDM_SETS 1#64 []).isSome = true := by decide +kernel
  obtain ⟨randSets, hsome⟩ := Option.isSome_iff_exists.1 hdrawn
  exact ⟨randSets, hsome, leaders_exact (by decide) hsome (by decide) (by decide)⟩

end DRRIP

end SandboxPredictor
