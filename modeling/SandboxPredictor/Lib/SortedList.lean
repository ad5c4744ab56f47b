import Mathlib.Data.List.Sort
import Mathlib.Data.Finset.Sort

/- Strictly increasing lists as finite sets: insertion at the place of an element,
   the linear search that stops at the first larger one, and the binary search
   with both ends included whose right end may fall below the left one.

   The binary search answers `none` when it reads outside the list. -/
namespace SortedList

variable {α : Type} [LinearOrder α]

/-- Put `x` before the first larger element; nothing changes when it is there. -/
def insert (x : α) : List α → List α
  | [] => [x]
  | y :: ys => if y = x then y :: ys else if x < y then x :: y :: ys else y :: insert x ys

/-- Look at the elements in order until one is not below `x`. -/
def linearSearch (x : α) : List α → Bool
  | [] => false
  | y :: ys => if x < y then false else if y = x then true else linearSearch x ys

/-- `l[i]`, where a negative `i` is outside the list too. -/
def read (l : List α) (i : Int) : Option α := if i < 0 then none else l[i.toNat]?

/-- Search between `first` and `last`, looking at `middle` next. -/
def searchLoop (l : List α) (x : α) : Nat → Int → Int → Int → Option Bool
  | 0, _, _, _ => none
  | fuel + 1, first, last, middle =>
    match read l middle with
    | none => none
    | some y =>
      if x < y then
        let last := middle - 1
        if last < first then some false
        else searchLoop l x fuel first last ((first + last).tdiv 2)
      else if y < x then
        let first := middle + 1
        if last < first then some false
        else searchLoop l x fuel first last ((first + last).tdiv 2)
      else some true

section insert

variable {x z : α} {l : List α}

@[simp] theorem mem_insert : z ∈ insert x l ↔ z = x ∨ z ∈ l := by
  induction l with
  | nil => simp [insert]
  | cons y ys ih =>
    unfold insert
    split
    · next hyx => subst hyx; simp
    · split
      · simp
      · simp only [List.mem_cons, ih]
        tauto

theorem pairwise_insert (h : l.Pairwise (· < ·)) : (insert x l).Pairwise (· < ·) := by
  induction l with
  | nil => simp [insert]
  | cons y ys ih =>
    obtain ⟨hy, hys⟩ := List.pairwise_cons.1 h
    unfold insert
    split
    · exact h
    · next hne =>
      split
      · next hlt =>
        refine List.pairwise_cons.2 ⟨?_, h⟩
        intro z hz
        rcases List.mem_cons.1 hz with rfl | hz
        · exact hlt
        · exact hlt.trans (hy z hz)
      · next hnlt =>
        refine List.pairwise_cons.2 ⟨?_, ih hys⟩
        intro z hz
        rcases mem_insert.1 hz with rfl | hz
        · exact lt_of_le_of_ne (not_lt.1 hnlt) hne
        · exact hy z hz

end insert

theorem linearSearch_eq {x : α} {l : List α} (h : l.Pairwise (· < ·)) :
    linearSearch x l = decide (x ∈ l) := by
  induction l with
  | nil => rfl
  | cons y ys ih =>
    obtain ⟨hy, hys⟩ := List.pairwise_cons.1 h
    unfold linearSearch
    split
    · next hlt =>
      have hmem : x ∉ y :: ys := by
        intro hx
        rcases List.mem_cons.1 hx with rfl | hx
        · exact lt_irrefl _ hlt
        · exact lt_asymm hlt (hy x hx)
      simp [hmem]
    · split
      · next heq => simp [heq]
      · next hne =>
        rw [ih hys]
        simp [Ne.symm hne]

section searchLoop

variable {l : List α} {x : α}

/-- What the loop keeps: an occurrence of `x` is between the two ends. -/
def Within (l : List α) (x : α) (first last : Int) : Prop :=
  ∀ k : Nat, l[k]? = some x → first ≤ k ∧ (k : Int) ≤ last

omit [LinearOrder α] in
theorem read_eq {i : Int} (h0 : 0 ≤ i) (hl : i < l.length) :
    ∃ a, l[i.toNat]? = some a ∧ read l i = some a := by
  have hget : l[i.toNat]? = some (l.get ⟨i.toNat, by omega⟩) := List.getElem?_eq_getElem (by omega)
  refine ⟨_, hget, ?_⟩
  unfold read
  rw [if_neg (by omega), hget]

theorem within_left (h : l.Pairwise (· < ·)) {m first last : Int} {a : α}
    (ha : l[m.toNat]? = some a) (hx : x < a) (hw : Within l x first last) :
    Within l x first (m - 1) := by
  intro k hk
  obtain ⟨hml, rfl⟩ := List.getElem?_eq_some_iff.1 ha
  obtain ⟨hkl, rfl⟩ := List.getElem?_eq_some_iff.1 hk
  refine ⟨(hw k hk).1, ?_⟩
  by_contra hlt
  -- at `middle` or to its right the elements are not below the one at `middle`
  rcases Nat.lt_or_eq_of_le (show m.toNat ≤ k by omega) with hmk | hmk
  · exact lt_asymm hx (List.pairwise_iff_getElem.1 h m.toNat k (by omega) hkl hmk)
  · subst hmk
    exact lt_irrefl _ hx

theorem within_right (h : l.Pairwise (· < ·)) {m first last : Int} {a : α}
    (ha : l[m.toNat]? = some a) (h0 : 0 ≤ m) (hx : a < x) (hw : Within l x first last) :
    Within l x (m + 1) last := by
  intro k hk
  obtain ⟨hml, rfl⟩ := List.getElem?_eq_some_iff.1 ha
  obtain ⟨hkl, rfl⟩ := List.getElem?_eq_some_iff.1 hk
  refine ⟨?_, (hw k hk).2⟩
  by_contra hlt
  rcases Nat.lt_or_eq_of_le (show k ≤ m.toNat by omega) with hmk | hmk
  · exact lt_asymm hx (List.pairwise_iff_getElem.1 h k m.toNat hkl (by omega) hmk)
  · subst hmk
    exact lt_irrefl _ hx

omit [LinearOrder α] in
theorem not_mem_of_within {first last : Int} (hw : Within l x first last) (h : last < first) :
    x ∉ l := by
  intro hx
  obtain ⟨k, hk⟩ := List.getElem?_of_mem hx
  have := hw k hk
  omega

/-- Between ends that are in the list, the loop reads only inside the list, ends
within as many rounds as there are places, and finds what is there. -/
theorem searchLoop_eq (h : l.Pairwise (· < ·)) (fuel : Nat) {first last middle : Int}
    (h0 : 0 ≤ first) (hfm : first ≤ middle) (hml : middle ≤ last) (hlen : last < l.length)
    (hfuel : last - first < fuel) (hw : Within l x first last) :
    searchLoop l x fuel first last middle = some (decide (x ∈ l)) := by
  induction fuel generalizing first last middle with
  | zero => omega
  | succ fuel ih =>
    have hm0 : 0 ≤ middle := by omega
    obtain ⟨a, ha, hread⟩ := read_eq hm0 (show middle < l.length by omega)
    unfold searchLoop
    simp only [hread]
    split
    · next hlt =>
      have hw' := within_left h ha hlt hw
      split
      · next hend => simp [not_mem_of_within hw' hend]
      · have htdiv : (first + (middle - 1)).tdiv 2 = (first + (middle - 1)) / 2 :=
          Int.tdiv_eq_ediv_of_nonneg (by omega)
        exact ih h0 (by omega) (by omega) (by omega) (by omega) hw'
    · next hnlt =>
      split
      · next hgt =>
        have hw' := within_right h ha hm0 hgt hw
        split
        · next hend => simp [not_mem_of_within hw' hend]
        · have htdiv : (middle + 1 + last).tdiv 2 = (middle + 1 + last) / 2 :=
            Int.tdiv_eq_ediv_of_nonneg (by omega)
          exact ih (by omega) (by omega) (by omega) (by omega) (by omega) hw'
      · next hngt =>
        have heq : a = x := le_antisymm (not_lt.1 hnlt) (not_lt.1 hngt)
        have hx : x ∈ l := heq ▸ List.mem_of_getElem? ha
        simp [hx]

/-- The whole list is searched from its middle. -/
theorem search_eq (h : l.Pairwise (· < ·)) (hne : l ≠ []) :
    searchLoop l x l.length 0 (l.length - 1) ((l.length - 1 : Int).tdiv 2)
      = some (decide (x ∈ l)) := by
  have hpos : 0 < l.length := List.length_pos_iff.2 hne
  have htdiv : (l.length - 1 : Int).tdiv 2 = (l.length - 1 : Int) / 2 :=
    Int.tdiv_eq_ediv_of_nonneg (by omega)
  refine searchLoop_eq h l.length (le_refl 0) (by omega) (by omega) (by omega) (by omega) ?_
  intro k hk
  obtain ⟨hkl, -⟩ := List.getElem?_eq_some_iff.1 hk
  omega

end searchLoop

/-- A strictly increasing list is the sorted list of its members. -/
theorem sort_toFinset {l : List α} (h : l.Pairwise (· < ·)) : l.toFinset.sort = l := by
  have hnodup : l.Nodup := h.imp (fun hlt => hlt.ne)
  exact (List.toFinset_sort (· ≤ ·) hnodup).2 (h.imp (fun hlt => hlt.le))

end SortedList
