import SandboxPredictor.Predictor
import SandboxPredictor.Lib.Saturating
import Mathlib.Logic.Function.Basic

/- `TagTable` (`tagtable.cc`), one tagged table of TAGE: entries found by a hash of
   the address and the history, and told apart by another.

   What one call does to the table is said once for each call: it leaves every
   entry but the one at `getIdx` as it is, and keeps counters and useful bits in
   range (`InRange`). -/
namespace SandboxPredictor

/-- `tage_entry_t`. -/
structure TageEntry where
  tag : Word
  counter : Int
  useful : Int
  deriving DecidableEq, Repr

namespace TageEntry

def valid (e : TageEntry) : Bool := decide (e.useful ≥ 0)

def weak (e : TageEntry) : Bool := decide (e.useful = 0) && (decide (e.counter = 0) || decide (e.counter = -1))

def taken (e : TageEntry) : Bool := decide (e.counter ≥ 0)

/-- `toPrediction`, called on valid entries only. -/
def toPrediction (e : TageEntry) : Prediction :=
  let rawConf := if e.counter < 0 then -1 * e.counter else e.counter + 1
  ⟨decide (e.counter ≥ 0), (rawConf + e.useful).toNat⟩

end TageEntry

/-- The loop of `fold`, for at most `fuel` iterations: what is left of `x`, and `out`. -/
def foldLoop (length : Nat) : Nat → Word → Word → Word × Word
  | 0, x, out => (x, out)
  | fuel + 1, x, out =>
    if x = 0 then (x, out) else foldLoop length fuel (x >>> length) (out ^^^ x)

/-- `fold`: the exclusive or of the chunks of `length` bits. 64 iterations are enough for
every length but 0, for which the loop of the source does not end. -/
def fold (x : Word) (length : Nat) : Word := (foldLoop length 64 x 0).2 &&& lowMask length

/-- An object constructed as `TagTable(idxLen, tagLen)`. -/
structure TagTable (idxLen tagLen : Nat) where
  content : Word → TageEntry

namespace TagTable

variable {idxLen tagLen : Nat}

def counterMax : Int := 1
def counterMin : Int := -1 * counterMax - 1
def usefulMax : Int := 3

def getIdx (_ : TagTable idxLen tagLen) (pc history : Word) : Word :=
  let rawIdx := (pc >>> idxLen) ^^^ pc ^^^ fold history idxLen
  rawIdx &&& lowMask idxLen

def getTag (_ : TagTable idxLen tagLen) (pc history : Word) : Word :=
  let rawTag := pc ^^^ fold history tagLen ^^^ (2#64 * fold history (tagLen - 1))
  rawTag &&& lowMask tagLen

/-- `content[idx] = e`. -/
def setEntry (t : TagTable idxLen tagLen) (idx : Word) (e : TageEntry) : TagTable idxLen tagLen :=
  ⟨Function.update t.content idx e⟩

def lookup (t : TagTable idxLen tagLen) (pc history : Word) : TageEntry :=
  let tmpEntry := t.content (t.getIdx pc history)
  -- useful = -1 indicates not found
  if t.getTag pc history = tmpEntry.tag then tmpEntry else ⟨0, 0, -1⟩

/-- `add`: the table after it when it returns true; `none` when it returns false, which
leaves the table as it is. -/
def add (t : TagTable idxLen tagLen) (pc history : Word) : Option (TagTable idxLen tagLen) :=
  let idx := t.getIdx pc history
  if (t.content idx).useful = 0
  then some (t.setEntry idx { t.content idx with counter := 0, tag := t.getTag pc history })
  else none

/-- The useful counter of an entry after `update(.., useful)`. -/
def moveUseful (useful x : Int) : Int :=
  if useful > 0 ∧ x < usefulMax then x + 1 else if useful < 0 ∧ x > 0 then x - 1 else x

def update (t : TagTable idxLen tagLen) (pc history : Word) (taken : Bool) (useful : Int) :
    TagTable idxLen tagLen :=
  let idx := t.getIdx pc history
  let e := t.content idx
  if t.getTag pc history ≠ e.tag then t
  else t.setEntry idx { e with
    counter := Saturating.step counterMin counterMax taken e.counter
    useful := moveUseful useful e.useful }

/-- `decay(pc, history)`. -/
def decay (t : TagTable idxLen tagLen) (pc history : Word) : TagTable idxLen tagLen :=
  let i := t.getIdx pc history
  let e := t.content i
  t.setEntry i { e with useful := if e.useful > 0 then e.useful - 1 else e.useful }

/-- `soft_reset`: `useful &= mask`. -/
def softReset (t : TagTable idxLen tagLen) (mask : BitVec 32) : TagTable idxLen tagLen :=
  ⟨fun i =>
    let e := t.content i
    { e with useful := (BitVec.ofInt 32 e.useful &&& mask).toInt }⟩

def hardReset (_ : TagTable idxLen tagLen) : TagTable idxLen tagLen := ⟨fun _ => ⟨0, 0, 0⟩⟩

/-! ## Ranges, and what a call changes -/

/-- A counter of two bits and a useful counter of two bits. -/
structure EntryInRange (e : TageEntry) : Prop where
  counter : counterMin ≤ e.counter ∧ e.counter ≤ counterMax
  useful : 0 ≤ e.useful ∧ e.useful ≤ usefulMax

def InRange (t : TagTable idxLen tagLen) : Prop := ∀ i, EntryInRange (t.content i)

variable {t : TagTable idxLen tagLen}

theorem counter_zero_range : counterMin ≤ 0 ∧ (0 : Int) ≤ counterMax := by decide

theorem hardReset_inRange (t : TagTable idxLen tagLen) : InRange t.hardReset :=
  fun _ => ⟨counter_zero_range, le_refl (0 : Int), show (0 : Int) ≤ usefulMax by decide⟩

theorem setEntry_inRange (h : InRange t) {idx : Word} {e : TageEntry} (he : EntryInRange e) :
    InRange (t.setEntry idx e) := by
  intro i
  by_cases hi : i = idx
  · subst hi
    simpa [setEntry] using he
  · simpa [setEntry, Function.update_of_ne hi] using h i

theorem add_inRange (h : InRange t) (pc history : Word) :
    ∀ t' ∈ t.add pc history, InRange t' := by
  intro t' ht'
  simp only [add] at ht'
  split at ht'
  · obtain rfl := Option.some.inj ht'
    exact setEntry_inRange h ⟨counter_zero_range, (h _).useful⟩
  · cases ht'

theorem moveUseful_range (useful : Int) {x : Int} (hx : 0 ≤ x ∧ x ≤ usefulMax) :
    0 ≤ moveUseful useful x ∧ moveUseful useful x ≤ usefulMax := by
  simp only [moveUseful]
  split_ifs <;> omega

theorem update_inRange (h : InRange t) (pc history : Word) (taken : Bool) (useful : Int) :
    InRange (t.update pc history taken useful) := by
  simp only [update]
  split
  · exact h
  · exact setEntry_inRange h
      ⟨Saturating.step_range taken (h _).counter, moveUseful_range useful (h _).useful⟩

theorem decay_inRange (h : InRange t) (pc history : Word) : InRange (t.decay pc history) := by
  have hu := (h (t.getIdx pc history)).useful
  apply setEntry_inRange h
  refine ⟨(h _).counter, ?_⟩
  dsimp only
  split <;> omega

/-- Masking does not leave the range: it clears bits. -/
theorem softReset_inRange (h : InRange t) (mask : BitVec 32) : InRange (t.softReset mask) := by
  intro i
  refine ⟨(h i).counter, ?_⟩
  obtain ⟨u, hu⟩ := Int.eq_ofNat_of_zero_le (h i).useful.1
  have hu3 : u ≤ 3 := by
    have hmax := (h i).useful.2
    simp only [usefulMax] at hmax
    omega
  show 0 ≤ (BitVec.ofInt 32 (t.content i).useful &&& mask).toInt ∧
    (BitVec.ofInt 32 (t.content i).useful &&& mask).toInt ≤ usefulMax
  have hle : (BitVec.ofInt 32 (t.content i).useful &&& mask).toNat ≤ 3 := by
    rw [hu, BitVec.toNat_and]
    apply le_trans Nat.and_le_left
    rw [BitVec.ofInt_natCast, BitVec.toNat_ofNat]
    exact le_trans (Nat.mod_le _ _) hu3
  rw [BitVec.toInt_eq_toNat_of_lt (by omega)]
  simp only [usefulMax]
  omega

/-! What training does to the entries. -/

section update
variable {pc history : Word} (taken : Bool) (useful : Int)

/-- The entry with the tag of the branch takes the outcome. -/
theorem update_self (h : t.getTag pc history = (t.content (t.getIdx pc history)).tag) :
    (t.update pc history taken useful).content (t.getIdx pc history) =
      { t.content (t.getIdx pc history) with
        counter := Saturating.step counterMin counterMax taken
          (t.content (t.getIdx pc history)).counter
        useful := moveUseful useful (t.content (t.getIdx pc history)).useful } := by
  simp [update, h, setEntry]

/-- The other entries stay. -/
theorem update_ne {i : Word} (hi : i ≠ t.getIdx pc history) :
    (t.update pc history taken useful).content i = t.content i := by
  simp only [update]
  split
  · rfl
  · exact Function.update_of_ne hi _ _

theorem update_tag (i : Word) :
    ((t.update pc history taken useful).content i).tag = (t.content i).tag := by
  simp only [update]
  split
  · rfl
  · by_cases hi : i = t.getIdx pc history
    · simp [setEntry, hi]
    · simp [setEntry, Function.update_of_ne hi]

end update

theorem setEntry_ne {idx i : Word} (e : TageEntry) (hi : i ≠ idx) :
    (t.setEntry idx e).content i = t.content i := Function.update_of_ne hi _ _

theorem add_eq_none_iff (pc history : Word) :
    t.add pc history = none ↔ (t.content (t.getIdx pc history)).useful ≠ 0 := by
  simp only [add]
  split
  next h0 => simp [h0]
  next h0 => simp [h0]

/-- An entry with the tag of the branch is found in its place. -/
theorem lookup_setEntry (t : TagTable idxLen tagLen) (pc history : Word) {e : TageEntry}
    (htag : e.tag = t.getTag pc history) :
    (t.setEntry (t.getIdx pc history) e).lookup pc history = e := by
  have hidx : (t.setEntry (t.getIdx pc history) e).content (t.getIdx pc history) = e :=
    Function.update_self _ _ _
  show (if t.getTag pc history = ((t.setEntry (t.getIdx pc history) e).content
    (t.getIdx pc history)).tag then _ else _ : TageEntry) = e
  rw [hidx, if_pos htag.symm]
  exact hidx

/-- `add` takes an entry that is not useful, and starts it afresh. -/
theorem add_eq_some {pc history : Word} {t' : TagTable idxLen tagLen}
    (h : t' ∈ t.add pc history) : (t.content (t.getIdx pc history)).useful = 0 ∧
      t' = t.setEntry (t.getIdx pc history) ⟨t.getTag pc history, 0, 0⟩ := by
  simp only [add] at h
  split at h
  next h0 =>
    refine ⟨h0, ?_⟩
    rw [← Option.some.inj h, h0]
  next => cases h

/-- `decay` where `add` refused takes one off the useful counter. -/
theorem decay_eq (h : InRange t) {pc history : Word} (hfull : t.add pc history = none) :
    t.decay pc history = t.setEntry (t.getIdx pc history)
      { t.content (t.getIdx pc history) with
        useful := (t.content (t.getIdx pc history)).useful - 1 } := by
  have hu := (h (t.getIdx pc history)).useful.1
  have hpos : (t.content (t.getIdx pc history)).useful > 0 := by
    have hne := (add_eq_none_iff pc history).1 hfull
    omega
  simp only [decay, if_pos hpos]

/-- Only an added entry changes a tag. -/
theorem add_tag {pc history : Word} {t' : TagTable idxLen tagLen} (h : t' ∈ t.add pc history)
    (i : Word) :
    (t'.content i).tag =
      if t.getIdx pc history = i then t.getTag pc history else (t.content i).tag := by
  simp only [add] at h
  split at h
  · obtain rfl := Option.some.inj h
    by_cases hi : t.getIdx pc history = i
    · simp [setEntry, hi]
    · simp [setEntry, hi, Function.update_of_ne (Ne.symm hi)]
  · cases h

theorem decay_tag (pc history : Word) (i : Word) :
    ((t.decay pc history).content i).tag = (t.content i).tag := by
  by_cases hi : i = t.getIdx pc history
  · simp [decay, setEntry, hi]
  · simp [decay, setEntry, Function.update_of_ne hi]

/-- In a table in range, `lookup` finds exactly the entries with the tag. -/
theorem lookup_valid_iff (h : InRange t) (pc history : Word) :
    (t.lookup pc history).valid = true ↔
      t.getTag pc history = (t.content (t.getIdx pc history)).tag := by
  simp only [lookup]
  split
  next heq => simp [TageEntry.valid, (h _).useful.1, heq]
  next hne => simp [TageEntry.valid, hne]

/-- An entry added where `lookup` found none changes the table. -/
theorem add_ne (h : InRange t) {pc history : Word} (hmiss : (t.lookup pc history).valid = false) :
    ∀ t' ∈ t.add pc history, t' ≠ t := by
  intro t' ht' heq
  have htag : t.getTag pc history ≠ (t.content (t.getIdx pc history)).tag := by
    intro htag
    rw [(lookup_valid_iff h pc history).2 htag] at hmiss
    cases hmiss
  simp only [add] at ht'
  split at ht'
  · obtain rfl := Option.some.inj ht'
    apply htag
    have hcontent := congrArg (fun t' => (content t' (t.getIdx pc history)).tag) heq
    simpa [setEntry] using hcontent
  · cases ht'

/-- Decay where `add` refused changes the table. -/
theorem decay_ne (h : InRange t) {pc history : Word} (hfull : t.add pc history = none) :
    t.decay pc history ≠ t := by
  intro heq
  have hu := (h (t.getIdx pc history)).useful.1
  rw [add_eq_none_iff] at hfull
  have hpos : (t.content (t.getIdx pc history)).useful > 0 := by omega
  have hcontent := congrArg (fun t' => (content t' (t.getIdx pc history)).useful) heq
  simp [decay, setEntry, hpos] at hcontent

end TagTable

end SandboxPredictor
