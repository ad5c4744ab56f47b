import SandboxPredictor.ChampSim.Drrip

/- Signature-based hit prediction, `replacement/ship.llc_repl`: a few sets of the last level
   are sampled, and what their lines are used for decides how the lines of an instruction are
   filled.

   A set of the sampler is an array of lines with ages, which `update_sampler` searches three
   times, in the end without a check that it has found a line. It always has: in every run the
   set holds the last different tags it was asked for, each once and with its rank as its age
   (`sampler_tracks`). -/
namespace SandboxPredictor

def SHCT_PRIME : Nat := 16381

def SHCT_MAX : Nat := 7

def SAMPLER_SET : Nat := 256 * NUM_CPUS

/-- `SAMPLER_class`. -/
structure SamplerLine where
  valid : Bool := false
  type : AccessType := .LOAD
  used : Bool := false
  tag : Nat := 0
  ip : Word := 0#64
  lru : Nat

/-- The state of `ship.llc_repl`. -/
structure SHIP (s w : Nat) where
  base : Rrip s w
  randSets : List Nat
  sampler : Nat → Fin (w + 1) → SamplerLine
  SHCT : Nat → Nat → Nat

/-- The line that `update_sampler` finds: one with the tag, else one that is free, else the
oldest. -/
inductive Match (w : Nat) where
  | hit (way : Fin (w + 1))
  | free (way : Fin (w + 1))
  | oldest (way : Fin (w + 1))

def Match.way {w : Nat} : Match w → Fin (w + 1)
  | hit way => way
  | free way => way
  | oldest way => way

namespace SHIP

variable {s w : Nat}

def new (s w : Nat) (randSets : List Nat) : SHIP s w where
  base := Rrip.new s w
  randSets := randSets
  sampler := fun _ way => { lru := way.val }
  SHCT := fun _ _ => 0

/-- The three searches of `update_sampler`; `none` is an index past the lines. -/
def lookup (line : Fin (w + 1) → SamplerLine) (tag : Nat) : Option (Match w) :=
  match KeyTable.find (fun l : SamplerLine => (l.valid, l.tag)) line (true, tag) with
  | some way => some (.hit way)
  | none =>
    match KeyTable.find SamplerLine.valid line false with
    | some way => some (.free way)
    | none => (KeyTable.find SamplerLine.lru line w).map .oldest

/-- The line is written, and becomes the youngest. -/
def renew (line : Fin (w + 1) → SamplerLine) (way : Fin (w + 1)) (l : SamplerLine) :
    Fin (w + 1) → SamplerLine := fun i =>
  if i = way then { l with lru := 0 }
  else if (line i).lru < (line way).lru then { line i with lru := (line i).lru + 1 }
  else line i

/-- The entry of an instruction in the history counter table. -/
def signature (ip : Word) : Nat := ip.toNat % SHCT_PRIME

/-- A counter of the table that goes up or down by one, within its bounds. -/
def train (SHCT : Nat → Nat → Nat) (cpu : Nat) (ip : Word) (up : Bool) : Nat → Nat → Nat :=
  Function.update SHCT cpu (Function.update (SHCT cpu) (signature ip)
    (if up then
      if SHCT cpu (signature ip) < SHCT_MAX then SHCT cpu (signature ip) + 1
      else SHCT cpu (signature ip)
    else
      if 0 < SHCT cpu (signature ip) then SHCT cpu (signature ip) - 1
      else SHCT cpu (signature ip)))

/-- The tag of an address in the sampler. -/
def samplerTag (s : Nat) (address : Word) : Nat := address.toNat / (64 * (s + 1))

/-- `update_sampler`. -/
def updateSampler (r : SHIP s w) (idx : Nat) (t : Touch) : Option (SHIP s w) :=
  let tag := samplerTag s t.fullAddr
  let line := r.sampler idx
  match lookup line tag with
  | none => none
  | some (.hit way) =>
    -- the instruction that brought the line was right; the line keeps it
    some { r with
      SHCT := train r.SHCT t.cpu (line way).ip false
      sampler := Function.update r.sampler idx
        (renew line way { line way with type := t.type, used := true }) }
  | some (.free way) =>
    some { r with
      sampler := Function.update r.sampler idx
        (renew line way
          { line way with valid := true, tag := tag, ip := t.ip, type := t.type, used := false }) }
  | some (.oldest way) =>
    some { r with
      SHCT := if (line way).used then r.SHCT else train r.SHCT t.cpu (line way).ip true
      sampler := Function.update r.sampler idx
        (renew line way { line way with tag := tag, ip := t.ip, type := t.type, used := false }) }

/-- `is_it_sampled`. -/
def isItSampled (randSets : List Nat) (set : Nat) : Option Nat := randSets.findIdx? (· == set)

/-- The value of a line that is used or filled. -/
def value (r : SHIP s w) (t : Touch) : Nat :=
  if t.hit then 0
  else if r.SHCT t.cpu (signature t.ip) = SHCT_MAX then maxRRPV else maxRRPV - 1

/-- An access to a sampled set trains the sampler. -/
def sample (r : SHIP s w) (set : Fin (s + 1)) (t : Touch) : Option (SHIP s w) :=
  match isItSampled r.randSets set with
  | some idx => r.updateSampler idx t
  | none => some r

/-- `llc_update_replacement_state`. -/
def updateReplacementState (r : SHIP s w) (set : Fin (s + 1)) (way : Fin (w + 1)) (t : Touch) :
    Option (SHIP s w) :=
  if t.Plain then
    if t.type = .WRITEBACK then
      some (if t.hit then r else { r with base := r.base.put set way (maxRRPV - 1) })
    else
      -- the prediction is read after the sampler has been trained
      (r.sample set t).map fun r' => { r' with base := r'.base.put set way (r'.value t) }
  else none

instance : Replacement (SHIP s w) s w where
  victim r set _ := (r.base.llcFindVictim set).map fun (way, base) => (way, { r with base := base })
  update r set way t := r.updateReplacementState set way t

/-! ## A set of the sampler -/

/-- The lines of a set hold the tags of `L`, youngest first; they were filled from the first
on, and a free line has the age it had at first. -/
structure Tracks (line : Fin (w + 1) → SamplerLine) (L : List Nat) : Prop where
  ranked : Recency.Ranked (fun i => (line i).valid = true) (fun i => (line i).tag)
    (fun i => (line i).lru) L
  placed : ∀ i, (line i).valid = true ↔ i.val < L.length
  fresh : ∀ i, (line i).valid = false → (line i).lru = i.val

variable {line : Fin (w + 1) → SamplerLine} {L : List Nat} {tag : Nat} {l : SamplerLine}
  {m : Match w}

theorem tracks_new (randSets : List Nat) (idx : Nat) :
    Tracks ((new s w randSets).sampler idx) [] where
  ranked := Recency.Ranked.empty fun _ h => Bool.noConfusion h
  placed := by
    intro i
    refine ⟨fun h => Bool.noConfusion h, fun h => absurd h (Nat.not_lt_zero _)⟩
  fresh := fun _ _ => rfl

/-- A line is always found. -/
theorem Tracks.lookup_isSome (h : Tracks line L) (tag : Nat) : ∃ m, lookup line tag = some m := by
  unfold lookup
  split
  · exact ⟨_, rfl⟩
  · split
    · exact ⟨_, rfl⟩
    · next hfull =>
      have hall : ∀ i, (line i).valid = true := by
        intro i
        exact Bool.eq_true_of_not_eq_false (KeyTable.find_eq_none.1 hfull i)
      obtain ⟨i, hi⟩ := h.ranked.exists_oldest hall (Fintype.card_fin (w + 1))
      obtain ⟨j, hj⟩ := KeyTable.find_isSome i hi
      exact ⟨.oldest j, by rw [hj]; rfl⟩

theorem renew_self (line : Fin (w + 1) → SamplerLine) (way : Fin (w + 1)) (l : SamplerLine) :
    renew line way l way = { l with lru := 0 } := if_pos rfl

theorem renew_of_ne {i way : Fin (w + 1)} (hi : i ≠ way) :
    renew line way l i
      = { line i with lru := if (line i).lru < (line way).lru then (line i).lru + 1
          else (line i).lru } := by
  rw [renew, if_neg hi]
  split
  · rfl
  · rfl

/-- The first free line comes right after the lines in use. -/
theorem Tracks.free_eq (h : Tracks line L) {way : Fin (w + 1)}
    (hfree : KeyTable.find SamplerLine.valid line false = some way) : way.val = L.length := by
  have hway : (line way).valid = false := KeyTable.key_of_find hfree
  have hle : L.length ≤ way.val := by
    have hnot : ¬ (line way).valid = true := by simp [hway]
    rw [h.placed] at hnot
    omega
  by_contra hne
  -- the line at that place is free, and earlier
  have hlt : L.length < w + 1 := Nat.lt_of_le_of_lt hle way.isLt
  have hearlier : (⟨L.length, hlt⟩ : Fin (w + 1)) < way := Nat.lt_of_le_of_ne hle (Ne.symm hne)
  have hvalid : (line ⟨L.length, hlt⟩).valid = true :=
    Bool.eq_true_of_not_eq_false (KeyTable.find_first hfree hearlier)
  rw [h.placed] at hvalid
  exact Nat.lt_irrefl _ hvalid

/-- No line has the tag. -/
def Missing (line : Fin (w + 1) → SamplerLine) (tag : Nat) : Prop :=
  ∀ i, (line i).valid = true → (line i).tag ≠ tag

/-- What is known of the line that was found. -/
def Fits (line : Fin (w + 1) → SamplerLine) (tag : Nat) : Match w → Prop
  | .hit way => (line way).valid = true ∧ (line way).tag = tag
  | .free way => Missing line tag ∧ KeyTable.find SamplerLine.valid line false = some way
  | .oldest way => Missing line tag ∧ (∀ i, (line i).valid = true) ∧ (line way).lru = w

theorem lookup_fits (h : lookup line tag = some m) : Fits line tag m := by
  unfold lookup at h
  split at h
  · next way hhit =>
    obtain rfl := Option.some.inj h
    have hkey := KeyTable.key_of_find hhit
    exact Prod.mk.inj hkey
  · next hmiss =>
    have hnew : Missing line tag := by
      intro i hi hit
      exact KeyTable.find_eq_none.1 hmiss i (by rw [hi, hit])
    split at h
    · next way hfree =>
      obtain rfl := Option.some.inj h
      exact ⟨hnew, hfree⟩
    · next hfull =>
      obtain ⟨way, hway, rfl⟩ := Option.map_eq_some_iff.1 h
      refine ⟨hnew, ?_, KeyTable.key_of_find hway⟩
      intro i
      exact Bool.eq_true_of_not_eq_false (KeyTable.find_eq_none.1 hfull i)

/-- What the line that was found is among the lines of its set, with the length of the list
after it has been written. -/
structure Places (line : Fin (w + 1) → SamplerLine) (L : List Nat) (tag : Nat)
    (way : Fin (w + 1)) (stop : Nat) : Prop where
  kind : ((line way).valid = true ∧ (line way).tag = tag ∧ stop = (line way).lru)
    ∨ tag ∉ L ∧ stop = w
      ∧ (¬ (line way).valid = true ∨ (∀ i, (line i).valid = true) ∧ (line way).lru = w)
  ages : ∀ j, (line j).valid = true → j ≠ way →
    ((line j).lru < (line way).lru ↔ (line j).lru < stop)
  fresh : ∀ i, (line i).valid = false → i ≠ way → (line way).lru ≤ i.val
  length : ∀ j : Fin (w + 1), (j = way ∨ (line j).valid = true)
    ↔ j.val < (Recency.touch (w + 1) L tag).length

theorem Tracks.places (h : Tracks line L) (hm : lookup line tag = some m) :
    ∃ stop, Places line L tag m.way stop := by
  have hrest : ∀ i, (line i).valid = false → L.length ≤ i.val := by
    intro i hi
    have hnot : ¬ (line i).valid = true := by simp [hi]
    rw [h.placed] at hnot
    omega
  have hmissing : Missing line tag → tag ∉ L := by
    intro hnew hmem
    obtain ⟨i, hi, hit⟩ := h.ranked.mem_iff.1 hmem
    exact hnew i hi hit
  have hfits := lookup_fits hm
  cases m with
  | hit way =>
    obtain ⟨hvalid, htag⟩ := hfits
    have hmem : tag ∈ L := htag ▸ h.ranked.key_mem hvalid
    have hage := h.ranked.age_lt hvalid
    have hle : L.length ≤ w + 1 := h.ranked.length_le_card.trans_eq (Fintype.card_fin (w + 1))
    refine ⟨(line way).lru, Or.inl ⟨hvalid, htag, rfl⟩, fun _ _ _ => Iff.rfl, ?_, ?_⟩
    · intro i hi _
      have hi' := hrest i hi
      rw [Match.way]
      omega
    · intro j
      have hpos := List.length_pos_of_mem hmem
      rw [Recency.touch_hit hmem hle, List.length_cons, List.length_erase_of_mem hmem,
        Nat.sub_add_cancel hpos, ← h.placed]
      refine ⟨?_, Or.inr⟩
      rintro (rfl | hj)
      · exact hvalid
      · exact hj
  | free way =>
    -- the first free line
    obtain ⟨hnew, hfree⟩ := hfits
    have hnot := hmissing hnew
    have hway : way.val = L.length := h.free_eq hfree
    have hinvalid : (line way).valid = false := KeyTable.key_of_find hfree
    have hlru : (line way).lru = L.length := (h.fresh _ hinvalid).trans hway
    have hw := way.isLt
    refine ⟨w, Or.inr ⟨hnot, rfl, Or.inl ?_⟩, ?_, ?_, ?_⟩
    · rw [Match.way, hinvalid]
      exact Bool.false_ne_true
    · intro j hj _
      have hage := h.ranked.age_lt hj
      rw [Match.way, hlru]
      omega
    · intro i hi _
      rw [Match.way, hlru]
      exact hrest i hi
    · intro j
      rw [Recency.touch_room hnot (by omega), List.length_cons, h.placed, Fin.ext_iff, Match.way]
      omega
  | oldest way =>
    obtain ⟨hnew, hall, hold⟩ := hfits
    have hnot := hmissing hnew
    have hlength : L.length = w + 1 :=
      (h.ranked.full_iff.2 hall).trans (Fintype.card_fin (w + 1))
    refine ⟨w, Or.inr ⟨hnot, rfl, Or.inr ⟨hall, hold⟩⟩, ?_, ?_, ?_⟩
    · intro j _ _
      rw [Match.way, hold]
    · intro i hi _
      rw [hall i] at hi
      cases hi
    · intro j
      rw [Recency.touch_full hnot hlength, List.length_cons, List.length_dropLast, hlength]
      have hj := j.isLt
      simp only [hall j, or_true, true_iff]
      omega

/-- **One access to a set of the sampler.** -/
theorem Tracks.renew (h : Tracks line L) (hm : lookup line tag = some m) (hvalid : l.valid = true)
    (htag : l.tag = tag) :
    Tracks (SHIP.renew line m.way l) (Recency.touch (w + 1) L tag) := by
  obtain ⟨stop, hplaces⟩ := h.places hm
  have hself := renew_self line m.way l
  have hv : ∀ j, (SHIP.renew line m.way l j).valid = true ↔ j = m.way ∨ (line j).valid = true := by
    intro j
    by_cases hj : j = m.way
    · rw [hj, hself]
      simp [hvalid]
    · rw [renew_of_ne hj]
      simp [hj]
  refine ⟨?_, ?_, ?_⟩
  · refine h.ranked.touch m.way stop (Fintype.card_fin (w + 1)) hv ?_ ?_ ?_ ?_ hplaces.kind
    · rw [hself]
      exact htag
    · intro j _ hj
      rw [renew_of_ne hj]
    · rw [hself]
    · intro j hjv hj
      rw [renew_of_ne hj]
      exact if_congr (hplaces.ages j hjv hj) rfl rfl
  · intro j
    rw [hv]
    exact hplaces.length j
  · intro i hi
    have hnot : ¬ (i = m.way ∨ (line i).valid = true) := by
      rw [← hv, hi]
      exact Bool.false_ne_true
    have hne : i ≠ m.way := fun hc => hnot (Or.inl hc)
    have hfree : (line i).valid = false := Bool.eq_false_of_not_eq_true fun hc => hnot (Or.inr hc)
    have hle := hplaces.fresh i hfree hne
    have hlru := h.fresh i hfree
    rw [renew_of_ne hne]
    dsimp only
    rw [if_neg (by omega)]
    exact hlru

/-! ## Over whole runs -/

variable {r : SHIP s w} {idx : Nat} {t : Touch}

/-- What training does: the set of the sampler is touched, and no other. -/
structure Trained (r : SHIP s w) (idx : Nat) (t : Touch) (r' : SHIP s w) : Prop where
  base : r'.base = r.base
  randSets : r'.randSets = r.randSets
  self : ∀ L, Tracks (r.sampler idx) L →
    Tracks (r'.sampler idx) (Recency.touch (w + 1) L (samplerTag s t.fullAddr))
  other : ∀ i, i ≠ idx → r'.sampler i = r.sampler i

theorem updateSampler_spec (h : ∃ L, Tracks (r.sampler idx) L) (t : Touch) :
    ∃ r', r.updateSampler idx t = some r' ∧ Trained r idx t r' := by
  obtain ⟨L, hL⟩ := h
  obtain ⟨m, hm⟩ := hL.lookup_isSome (samplerTag s t.fullAddr)
  have hother : ∀ (f : Fin (w + 1) → SamplerLine) (i : Nat), i ≠ idx →
      Function.update r.sampler idx f i = r.sampler i := by
    intro f i hi
    exact Function.update_of_ne hi ..
  have hself : ∀ l : SamplerLine, l.valid = true → l.tag = samplerTag s t.fullAddr →
      ∀ L, Tracks (r.sampler idx) L →
        Tracks (Function.update r.sampler idx (renew (r.sampler idx) m.way l) idx)
          (Recency.touch (w + 1) L (samplerTag s t.fullAddr)) := by
    intro l hvalid htag L hL
    rw [Function.update_self]
    exact hL.renew hm hvalid htag
  have hfits := lookup_fits hm
  unfold updateSampler
  dsimp only
  rw [hm]
  cases m with
  | hit way => exact ⟨_, rfl, rfl, rfl, hself _ hfits.1 hfits.2, hother _⟩
  | free way => exact ⟨_, rfl, rfl, rfl, hself _ rfl rfl, hother _⟩
  | oldest way => exact ⟨_, rfl, rfl, rfl, hself _ (hfits.2.1 way) rfl, hother _⟩

/-- The sets of the sampler are in order. -/
def Ordered (r : SHIP s w) : Prop := ∀ idx, ∃ L, Tracks (r.sampler idx) L

theorem Ordered.sample (h : r.Ordered) (set : Fin (s + 1)) (t : Touch) :
    ∃ r', r.sample set t = some r' ∧ r'.base = r.base ∧ r'.Ordered := by
  unfold SHIP.sample
  split
  · next idx _ =>
    obtain ⟨r', htrain, hspec⟩ := updateSampler_spec (h idx) t
    refine ⟨r', htrain, hspec.base, ?_⟩
    intro i
    by_cases hi : i = idx
    · subst hi
      obtain ⟨L, hL⟩ := h i
      exact ⟨_, hspec.self L hL⟩
    · rw [hspec.other i hi]
      exact h i
  · exact ⟨r, rfl, rfl, h⟩

theorem value_le (r : SHIP s w) (t : Touch) : r.value t ≤ maxRRPV := by
  unfold value
  split_ifs
  · exact Nat.zero_le _
  · exact Nat.le_refl _
  · exact Nat.sub_le ..

/-- There always is a victim, and `update_sampler` always finds a line. -/
def law (s w : Nat) : ReplacementLaw (SHIP s w) where
  inv r := r.base.Bounded ∧ r.Ordered
  victim := by
    intro r set valid h
    obtain ⟨way, base, hvictim, hbounded⟩ :=
      Rrip.Bounded.victim h.1 set fun base => { r with base := base }
    exact ⟨way, _, hvictim, hbounded, h.2⟩
  update := by
    intro r set way t h ht
    change ∃ r', r.updateReplacementState set way t = some r' ∧ _
    unfold updateReplacementState
    rw [if_pos ht]
    split
    · refine ⟨_, rfl, ?_⟩
      split
      · exact h
      · exact ⟨h.1.put (Nat.sub_le ..), h.2⟩
    · obtain ⟨r', hsample, hbase, hordered⟩ := h.2.sample set t
      rw [hsample]
      exact ⟨_, rfl, Rrip.Bounded.put (hbase ▸ h.1) (value_le r' t), hordered⟩

/-- The tag that a call looks for in a set of the sampler. -/
def sampledTag (s : Nat) (randSets : List Nat) (idx : Nat) : PolicyCall s w → Option Nat
  | .victim _ _ => none
  | .update set _ t =>
    if t.type ≠ .WRITEBACK ∧ isItSampled randSets set = some idx then
      some (samplerTag s t.fullAddr)
    else none

/-- The policy after the calls `tr`. -/
abbrev after (s w : Nat) (randSets : List Nat) (tr : List (PolicyCall s w)) : SHIP s w :=
  Mealy.run Replacement.call (new s w randSets) tr

/-- The tags that a set of the sampler should hold after the calls `tr`, youngest first. -/
def lastTags (randSets : List Nat) (idx : Nat) (tr : List (PolicyCall s w)) : List Nat :=
  (Recency.recent (tr.filterMap (sampledTag s randSets idx))).take (w + 1)

variable {c : PolicyCall s w} {r' : SHIP s w}

/-- What a call does to the sampler. -/
structure CallSpec (r : SHIP s w) (c : PolicyCall s w) (r' : SHIP s w) : Prop where
  randSets : r'.randSets = r.randSets
  same : ∀ idx, sampledTag s r.randSets idx c = none → r'.sampler idx = r.sampler idx
  touched : ∀ idx tag, sampledTag s r.randSets idx c = some tag → ∀ L,
    Tracks (r.sampler idx) L → Tracks (r'.sampler idx) (Recency.touch (w + 1) L tag)

/-- A call that is no access to a sampled set. -/
theorem CallSpec.of_same (hrand : r'.randSets = r.randSets) (hsampler : r'.sampler = r.sampler)
    (hnone : ∀ idx, sampledTag s r.randSets idx c = none) : CallSpec r c r' where
  randSets := hrand
  same := fun idx _ => congrFun hsampler idx
  touched := by
    intro idx tag htag
    rw [hnone idx] at htag
    cases htag

theorem sampledTag_writeback (randSets : List Nat) (set : Fin (s + 1)) (way : Fin (w + 1))
    (ht : t.type = .WRITEBACK) (idx : Nat) :
    sampledTag s randSets idx (.update set way t) = none := by
  rw [sampledTag, if_neg fun hc => hc.1 ht]

theorem update_spec (h : r.Ordered) (set : Fin (s + 1)) (way : Fin (w + 1)) (t : Touch) :
    CallSpec r (.update set way t) (Replacement.call r (.update set way t)).2 := by
  have hcode : Replacement.update r set way t = r.updateReplacementState set way t := rfl
  rw [Replacement.call, hcode, updateReplacementState]
  by_cases hwb : t.type = .WRITEBACK
  · have hnone := sampledTag_writeback r.randSets set way hwb
    by_cases hplain : t.Plain
    · rw [if_pos hplain, if_pos hwb]
      dsimp only
      split
      · exact CallSpec.of_same rfl rfl hnone
      · exact CallSpec.of_same rfl rfl hnone
    · -- the assertion fails, and nothing has changed
      rw [if_neg hplain]
      exact CallSpec.of_same rfl rfl hnone
  · have hplain : t.Plain := fun hc => absurd hc hwb
    rw [if_pos hplain, if_neg hwb, SHIP.sample]
    cases hset : isItSampled r.randSets set with
    | none =>
      refine CallSpec.of_same rfl rfl ?_
      intro idx
      rw [sampledTag, if_neg fun hc => by rw [hset] at hc; cases hc.2]
    | some k =>
      obtain ⟨q, htrain, hspec⟩ := updateSampler_spec (h k) t
      dsimp only
      rw [htrain]
      refine ⟨hspec.randSets, ?_, ?_⟩
      · intro idx htag
        apply hspec.other
        rintro rfl
        rw [sampledTag, if_pos ⟨hwb, hset⟩] at htag
        cases htag
      · intro idx tag htag
        rw [sampledTag] at htag
        split at htag
        · next hc =>
          obtain rfl := Option.some.inj htag
          obtain rfl : k = idx := Option.some.inj (hset.symm.trans hc.2)
          exact hspec.self
        · cases htag

/-- **One call.** -/
theorem call_spec (h : r.Ordered) (c : PolicyCall s w) :
    CallSpec r c (Replacement.call r c).2 := by
  cases c with
  | victim set valid =>
    have hsame : ∃ base, (Replacement.call r (.victim set valid)).2 = { r with base := base } :=
      Rrip.call_victim (fun base => { r with base := base }) rfl
    obtain ⟨base, hbase⟩ := hsame
    rw [hbase]
    exact CallSpec.of_same rfl rfl fun _ => rfl
  | update set way t => exact update_spec h set way t

theorem lastTags_snoc (randSets : List Nat) (idx : Nat) (tr : List (PolicyCall s w))
    (c : PolicyCall s w) :
    lastTags randSets idx (tr ++ [c]) = (sampledTag s randSets idx c).elim (lastTags randSets idx tr)
      (Recency.touch (w + 1) (lastTags randSets idx tr)) := by
  unfold lastTags
  rw [List.filterMap_append]
  cases htag : sampledTag s randSets idx c with
  | none => simp [htag]
  | some tag =>
    have hone : [c].filterMap (sampledTag s randSets idx) = [tag] := by simp [htag]
    rw [hone, Recency.recent_take_snoc]
    rfl

theorem tracks_after (randSets : List Nat) (tr : List (PolicyCall s w)) :
    (after s w randSets tr).randSets = randSets
      ∧ ∀ idx, Tracks ((after s w randSets tr).sampler idx) (lastTags randSets idx tr) := by
  refine Mealy.run_induction (P := fun tr (r : SHIP s w) => r.randSets = randSets
    ∧ ∀ idx, Tracks (r.sampler idx) (lastTags randSets idx tr)) ?_ ?_ tr
  · exact ⟨rfl, tracks_new randSets⟩
  · intro tr r c h
    obtain ⟨hrand, htracks⟩ := h
    have hspec := call_spec (fun idx => ⟨_, htracks idx⟩) c
    refine ⟨hspec.randSets.trans hrand, ?_⟩
    intro idx
    rw [lastTags_snoc]
    cases htag : sampledTag s randSets idx c with
    | none =>
      rw [hspec.same idx (hrand ▸ htag)]
      exact htracks idx
    | some tag => exact hspec.touched idx tag (hrand ▸ htag) _ (htracks idx)

/-- **The sampler holds the last tags.** In every run the valid lines of a set of the sampler
hold the last `w + 1` different tags it was asked for, each in one line, and the age of a line
is the number of tags that were asked for since. -/
theorem sampler_tracks (randSets : List Nat) (tr : List (PolicyCall s w)) (idx : Nat) :
    let line := (after s w randSets tr).sampler idx
    (∀ tag, tag ∈ lastTags randSets idx tr ↔ ∃ i, (line i).valid = true ∧ (line i).tag = tag)
      ∧ (∀ i, (line i).valid = true →
        (lastTags randSets idx tr)[(line i).lru]? = some (line i).tag)
      ∧ ∀ i j, (line i).valid = true → (line j).valid = true → (line i).tag = (line j).tag →
        i = j := by
  intro line
  have hranked := ((tracks_after randSets tr).2 idx).ranked
  refine ⟨fun tag => hranked.mem_iff, hranked.get, ?_⟩
  intro i j hi hj hij
  exact hranked.key_inj hi hj hij

/-! ## The sampled sets -/

/-- Once `llc_initialize_replacement` has drawn its sets, `SAMPLER_SET` sets of the cache are
sampled. -/
theorem sampled_exact {sets draws : Nat} {randSets : List Nat} (hpos : 0 < sets)
    (h : chooseSets sets draws SAMPLER_SET 1#64 [] = some randSets) :
    ((List.range sets).filter fun set => (isItSampled randSets set).isSome = true).length
      = SAMPLER_SET := by
  have hdrawn := chooseSets_start hpos h
  rw [hdrawn.count_part (List.Sublist.refl randSets) _ ?_, hdrawn.length]
  intro set
  rw [isItSampled, List.findIdx?_isSome, List.any_eq_true]
  simp

/-- No two sets share a set of the sampler. -/
theorem isItSampled_inj {randSets : List Nat} {set set' idx : Nat}
    (h : isItSampled randSets set = some idx) (h' : isItSampled randSets set' = some idx) :
    set = set' := by
  obtain ⟨_, hset, -⟩ := List.findIdx?_eq_some_iff_getElem.1 h
  obtain ⟨_, hset', -⟩ := List.findIdx?_eq_some_iff_getElem.1 h'
  exact (beq_iff_eq.1 hset).symm.trans (beq_iff_eq.1 hset')

end SHIP

end SandboxPredictor
