import Mathlib.Data.Finset.Sort
import Mathlib.Data.Fintype.Basic
import Mathlib.Data.List.FinRange
import Mathlib.Logic.Function.Basic

/- Sets of numbers below `64 * k`, one bit each in `k` machine words. -/
namespace Bitset

variable {k : Nat}

/-- The word that holds the bit of `x`, `x >> 6`. -/
def word (x : Fin (64 * k)) : Fin k := ⟨x.val >>> 6, by
  rw [Nat.shiftRight_eq_div_pow]
  omega⟩

/-- The place of the bit of `x` in its word, `x & 63`. -/
def bit (x : Fin (64 * k)) : Nat := x.val &&& 63

theorem word_val (x : Fin (64 * k)) : (word x).val = x.val / 64 := by
  simp [word, Nat.shiftRight_eq_div_pow]

theorem bit_eq (x : Fin (64 * k)) : bit x = x.val % 64 :=
  Nat.and_two_pow_sub_one_eq_mod x.val 6

theorem bit_lt (x : Fin (64 * k)) : bit x < 64 := by
  rw [bit_eq]
  omega

theorem eq_of_word_bit {x y : Fin (64 * k)} (hw : word x = word y) (hb : bit x = bit y) :
    x = y := by
  have hw' := congrArg Fin.val hw
  rw [word_val, word_val] at hw'
  rw [bit_eq, bit_eq] at hb
  omega

/-- `(bits[word] >> bit) & 1`. -/
def get (w : Fin k → BitVec 64) (x : Fin (64 * k)) : Bool :=
  (w (word x) >>> bit x) &&& 1#64 == 1#64

/-- `bits[word] |= 1ull << bit`. -/
def set (w : Fin k → BitVec 64) (x : Fin (64 * k)) : Fin k → BitVec 64 :=
  Function.update w (word x) (w (word x) ||| (1#64 <<< bit x))

/-- The numbers whose bit is set. -/
def members (w : Fin k → BitVec 64) : Finset (Fin (64 * k)) :=
  Finset.univ.filter (fun x => get w x)

theorem get_eq (w : Fin k → BitVec 64) (x : Fin (64 * k)) :
    get w x = (w (word x)).getLsbD (bit x) := by
  unfold get
  rw [BitVec.and_one_eq_setWidth_ofBool_getLsbD, BitVec.getLsbD_ushiftRight, Nat.add_zero]
  cases (w (word x)).getLsbD (bit x) <;> decide

@[simp] theorem mem_members {w : Fin k → BitVec 64} {x : Fin (64 * k)} :
    x ∈ members w ↔ get w x = true := by
  simp [members]

@[simp] theorem get_empty (x : Fin (64 * k)) : get (fun _ : Fin k => 0#64) x = false := by
  simp [get_eq]

/-- Setting a bit adds its number and no other. -/
theorem get_set (w : Fin k → BitVec 64) (x y : Fin (64 * k)) :
    get (set w x) y = (decide (y = x) || get w y) := by
  rw [get_eq, get_eq]
  by_cases hw : word y = word x
  · have hbit : (1#64 <<< bit x).getLsbD (bit y) = decide (bit y = bit x) := by
      rw [BitVec.getLsbD_shiftLeft, BitVec.getLsbD_one]
      have := bit_lt y
      by_cases hb : bit y = bit x
      · simp [hb, bit_lt x]
      · have hne : ¬ (bit x ≤ bit y ∧ bit y - bit x = 0) := by omega
        simp only [hb, decide_false]
        by_cases hle : bit y < bit x
        · simp [hle]
        · have hpos : bit y - bit x ≠ 0 := by omega
          simp [hpos]
    have hiff : (bit y = bit x) ↔ y = x := ⟨eq_of_word_bit hw, fun h => h ▸ rfl⟩
    rw [set, hw, Function.update_self, BitVec.getLsbD_or, hbit, decide_eq_decide.2 hiff,
      Bool.or_comm]
  · have hne : y ≠ x := fun h => hw (h ▸ rfl)
    rw [set, Function.update_of_ne hw]
    simp [hne]

theorem members_set (w : Fin k → BitVec 64) (x : Fin (64 * k)) :
    members (set w x) = insert x (members w) := by
  ext y
  simp [get_set]

/-- Setting the bits of a list, one after the other. -/
theorem members_foldl_set (l : List (Fin (64 * k))) (w : Fin k → BitVec 64) :
    members (l.foldl set w) = members w ∪ l.toFinset := by
  induction l generalizing w with
  | nil => simp
  | cons x xs ih => simp [ih, members_set, Finset.insert_union, Finset.union_insert]

theorem members_zero : members (fun _ : Fin k => 0#64) = ∅ := by
  ext x
  simp

/-- The first `lim` words of `v` are or-ed into `w`. -/
def orWords (w v : Fin k → BitVec 64) (lim : Nat) : Fin k → BitVec 64 :=
  fun i => if i.val < lim then w i ||| v i else w i

theorem get_orWords (w v : Fin k → BitVec 64) (lim : Nat) (x : Fin (64 * k)) :
    get (orWords w v lim) x = (get w x || (decide (x.val / 64 < lim) && get v x)) := by
  rw [get_eq, get_eq, get_eq]
  unfold orWords
  rw [word_val]
  split
  · next h => simp [h, BitVec.getLsbD_or]
  · next h => simp [h]

/-- `((n | 63) + 1) / 64`: the words up to the one that holds `n`. -/
theorem lim_eq (n : Nat) : ((n ||| 63) + 1) / 64 = n / 64 + 1 := by
  have hlow : (n ||| 63) % 64 = 63 := by
    have h := Nat.or_mod_two_pow (a := n) (b := 63) (n := 6)
    have hmod : n % 64 < 2 ^ 6 := Nat.mod_lt _ (by decide)
    have hor : n % 64 ||| 63 = 63 := by
      apply Nat.eq_of_testBit_eq
      intro i
      rw [Nat.testBit_or, show (63 : Nat) = 2 ^ 6 - 1 from rfl, Nat.testBit_two_pow_sub_one]
      by_cases hi : i < 6
      · simp [hi]
      · have hz : (n % 64).testBit i = false :=
          Nat.testBit_lt_two_pow (lt_of_lt_of_le hmod (Nat.pow_le_pow_right (by decide) (by omega)))
        simp [hi, hz]
    simpa [hor] using h
  have hhigh : (n ||| 63) / 64 = n / 64 := by
    have h := Nat.shiftRight_or_distrib (a := n) (b := 63) (i := 6)
    simpa [Nat.shiftRight_eq_div_pow] using h
  omega

/-! ## Listing the members -/

/-- The members of the word `i` that are below `n`, in order; the loop stops at `n`. -/
def wordMembers (w : Fin k → BitVec 64) (n : Nat) (i : Fin k) : List (Fin (64 * k)) :=
  (((List.finRange 64).map (fun j => ⟨64 * i.val + j.val, by omega⟩)).takeWhile
    (fun l : Fin (64 * k) => l.val < n)).filter (fun l => get w l)

/-- Go through the words below `n`, skipping those with no bit set. -/
def expand (w : Fin k → BitVec 64) (n : Nat) : List (Fin (64 * k)) :=
  (List.finRange k).flatMap
    (fun i => if 64 * i.val < n ∧ w i ≠ 0#64 then wordMembers w n i else [])

theorem takeWhile_lt_eq_filter {l : List (Fin (64 * k))} (h : l.Pairwise (· < ·)) (n : Nat) :
    l.takeWhile (fun x => x.val < n) = l.filter (fun x => x.val < n) := by
  induction l with
  | nil => rfl
  | cons x xs ih =>
    obtain ⟨hx, hxs⟩ := List.pairwise_cons.1 h
    by_cases hn : x.val < n
    · simp [hn, ih hxs]
    · have hnone : ∀ y ∈ xs, ¬ y.val < n := by
        intro y hy
        have := hx y hy
        omega
      simp only [List.takeWhile_cons, List.filter_cons, hn, decide_false, Bool.false_eq_true,
        if_false]
      exact (List.filter_eq_nil_iff.2 (by simpa using hnone)).symm

theorem pairwise_places (i : Fin k) :
    ((List.finRange 64).map (fun j => (⟨64 * i.val + j.val, by omega⟩ : Fin (64 * k)))).Pairwise
      (· < ·) := by
  rw [List.pairwise_map]
  refine (List.pairwise_lt_finRange 64).imp ?_
  intro a b hab
  have : a.val < b.val := hab
  simp only [Fin.mk_lt_mk]
  omega

theorem mem_wordMembers {w : Fin k → BitVec 64} {n : Nat} {i : Fin k} {x : Fin (64 * k)} :
    x ∈ wordMembers w n i ↔ word x = i ∧ x.val < n ∧ get w x = true := by
  unfold wordMembers
  rw [takeWhile_lt_eq_filter (pairwise_places i)]
  simp only [List.mem_filter, List.mem_map, List.mem_finRange, true_and, decide_eq_true_eq]
  constructor
  · rintro ⟨⟨⟨j, rfl⟩, hn⟩, hg⟩
    refine ⟨?_, hn, hg⟩
    apply Fin.ext
    rw [word_val]
    have := j.isLt
    simp only
    omega
  · rintro ⟨rfl, hn, hg⟩
    refine ⟨⟨⟨⟨bit x, bit_lt x⟩, ?_⟩, hn⟩, hg⟩
    apply Fin.ext
    simp only [word_val, bit_eq]
    omega

/-- The words are visited and read in increasing order. -/
theorem pairwise_expand (w : Fin k → BitVec 64) (n : Nat) : (expand w n).Pairwise (· < ·) := by
  unfold expand
  rw [List.pairwise_flatMap]
  refine ⟨?_, ?_⟩
  · intro i _
    split
    · exact ((pairwise_places i).sublist (List.takeWhile_sublist _)).filter _
    · exact List.Pairwise.nil
  · refine (List.pairwise_lt_finRange k).imp ?_
    intro a b hab x hx y hy
    have hmem : ∀ {i : Fin k} {z : Fin (64 * k)},
        z ∈ (if 64 * i.val < n ∧ w i ≠ 0#64 then wordMembers w n i else []) → word z = i := by
      intro i z hz
      split at hz
      · exact (mem_wordMembers.1 hz).1
      · simp at hz
    have hlt : (word x).val < (word y).val := by
      rw [hmem hx, hmem hy]
      exact hab
    rw [word_val, word_val] at hlt
    rw [Fin.lt_def]
    omega

theorem mem_expand {w : Fin k → BitVec 64} {n : Nat} {x : Fin (64 * k)} :
    x ∈ expand w n ↔ x.val < n ∧ get w x = true := by
  unfold expand
  simp only [List.mem_flatMap, List.mem_finRange, true_and]
  constructor
  · rintro ⟨i, hi⟩
    split at hi
    · exact (mem_wordMembers.1 hi).2
    · simp at hi
  · rintro ⟨hn, hg⟩
    refine ⟨word x, ?_⟩
    have hlow : 64 * (word x).val < n := by
      rw [word_val]
      omega
    -- a word that is skipped has no bit set
    have hword : w (word x) ≠ 0#64 := by
      intro hz
      rw [get_eq, hz] at hg
      simp at hg
    rw [if_pos ⟨hlow, hword⟩]
    exact mem_wordMembers.2 ⟨rfl, hn, hg⟩

end Bitset
