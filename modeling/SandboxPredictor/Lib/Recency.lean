import Mathlib.Data.List.Dedup
import Mathlib.Data.List.FinRange
import Mathlib.Data.List.Nodup
import Mathlib.Data.Fintype.EquivFin
import Mathlib.Tactic.Common

/- Recency lists, and arrays of aged slots that represent them.

   A recency list holds distinct keys, the most recently accessed first. Caches
   keep no such list: they keep slots, each with a valid bit, a key and an age.
   `Ranked valid key age L` says that the valid slots, read in the order of
   their ages `0, 1, …`, hold exactly the list `L`. The four rules below say
   what re-ageing the slots does to the list:

     `Ranked.bump`     a valid slot becomes the youngest      `k :: L.erase k`
     `Ranked.insert`   an invalid slot is filled              `x :: L`
     `Ranked.replace`  the oldest slot takes a new key        `x :: L.dropLast`
     `Ranked.remove`   a valid slot is cleared                `L.erase k`

   The second half is the list side: `recent t` is the recency list of a trace
   `t`, `touch n` is one access to a bounded recency list, and `recent_take_snoc`
   says that `n` slots under `touch n` hold the first `n` keys of `recent t`.
   `Ranked.touch` joins the two: one access to an array of aged slots. -/
namespace Recency

variable {ι K : Type}

/-- The valid slots, in the order of their ages, hold the keys of `L`. -/
structure Ranked (valid : ι → Prop) (key : ι → K) (age : ι → Nat) (L : List K) : Prop where
  nodup : L.Nodup
  get : ∀ i, valid i → L[age i]? = some (key i)
  slot : ∀ a, a < L.length → ∃ i, valid i ∧ age i = a
  inj : ∀ i j, valid i → valid j → age i = age j → i = j

namespace Ranked

variable {v v' : ι → Prop} {k k' : ι → K} {a a' : ι → Nat} {L : List K} {i₀ : ι} {x : K}

theorem empty (h : ∀ i, ¬ v i) : Ranked v k a [] where
  nodup := List.nodup_nil
  get := fun i hi => absurd hi (h i)
  slot := fun _ ha => absurd ha (by simp)
  inj := fun i _ hi => absurd hi (h i)

theorem age_lt (h : Ranked v k a L) {i : ι} (hi : v i) : a i < L.length := by
  have hg := h.get i hi
  exact (List.getElem?_eq_some_iff.mp hg).1

theorem key_inj (h : Ranked v k a L) {i j : ι} (hi : v i) (hj : v j) (hk : k i = k j) :
    i = j := by
  apply h.inj i j hi hj
  obtain ⟨hi', h1⟩ := List.getElem?_eq_some_iff.mp (h.get i hi)
  obtain ⟨hj', h2⟩ := List.getElem?_eq_some_iff.mp (h.get j hj)
  exact h.nodup.getElem_inj_iff.mp (by rw [h1, h2, hk])

theorem mem_iff (h : Ranked v k a L) : x ∈ L ↔ ∃ i, v i ∧ k i = x := by
  refine ⟨?_, ?_⟩
  · intro hx
    obtain ⟨n, hn, rfl⟩ := List.getElem_of_mem hx
    obtain ⟨i, hi, hai⟩ := h.slot n hn
    refine ⟨i, hi, ?_⟩
    have hg := (List.getElem?_eq_some_iff.mp (h.get i hi)).2
    rw [← hg]; simp [hai]
  · intro ⟨i, hi, hk⟩
    rw [← hk]
    exact List.mem_of_getElem? (h.get i hi)

theorem key_mem (h : Ranked v k a L) {i : ι} (hi : v i) : k i ∈ L :=
  h.mem_iff.mpr ⟨i, hi, rfl⟩

/-- The key of the oldest slot is the last of the list. -/
theorem getLast (h : Ranked v k a L) {i : ι} (hi : v i) (ho : a i + 1 = L.length) :
    L.getLast? = some (k i) := by
  rw [List.getLast?_eq_getElem?, ← ho]
  exact h.get i hi

theorem erase_eq [DecidableEq K] (h : Ranked v k a L) {i : ι} (hi : v i) :
    L.erase (k i) = L.eraseIdx (a i) := by
  have hg := List.getElem?_eq_some_iff.mp (h.get i hi)
  rw [List.erase_eq_eraseIdx_of_idxOf]
  rw [← hg.2]
  exact h.nodup.idxOf_getElem _ _

/-- The same slots and keys under equal descriptions. -/
theorem congr (h : Ranked v k a L) (hv : ∀ i, v' i ↔ v i) (hk : ∀ i, v i → k' i = k i)
    (ha : ∀ i, v i → a' i = a i) : Ranked v' k' a' L where
  nodup := h.nodup
  get := fun i hi => by
    have hi := (hv i).mp hi
    rw [hk i hi, ha i hi]; exact h.get i hi
  slot := fun n hn => by
    obtain ⟨i, hi, rfl⟩ := h.slot n hn
    exact ⟨i, (hv i).mpr hi, ha i hi⟩
  inj := fun i j hi hj hij => by
    have hi := (hv i).mp hi
    have hj := (hv j).mp hj
    rw [ha i hi, ha j hj] at hij
    exact h.inj i j hi hj hij

/-! The four ways a slot changes. -/

theorem bump [DecidableEq K] (h : Ranked v k a L) (hi : v i₀) (h0 : a' i₀ = 0)
    (hy : ∀ j, v j → j ≠ i₀ → a' j = if a j < a i₀ then a j + 1 else a j) :
    Ranked v k a' (k i₀ :: L.erase (k i₀)) := by
  have hlt := h.age_lt hi
  have hne : ∀ j, v j → j ≠ i₀ → a j ≠ a i₀ := fun j hj hji e => hji (h.inj j i₀ hj hi e)
  refine ⟨?_, ?_, ?_, ?_⟩
  · rw [List.nodup_cons]
    exact ⟨h.nodup.not_mem_erase, h.nodup.erase _⟩
  · intro j hj
    rw [h.erase_eq hi]
    by_cases hji : j = i₀
    · subst hji; simp [h0]
    · have hne := hne j hj hji
      rw [hy j hj hji]
      have hg := h.get j hj
      split
      · next hlt => simp [List.getElem?_eraseIdx, hlt, hg]
      · next hge =>
        obtain ⟨b, hb⟩ : ∃ b, a j = b + 1 := ⟨a j - 1, by omega⟩
        rw [hb] at hg ⊢
        rw [List.getElem?_cons_succ, List.getElem?_eraseIdx, if_neg (by omega), hg]
  · intro n hn
    have hlen : (L.erase (k i₀)).length + 1 = L.length := by
      rw [List.length_erase_of_mem (h.key_mem hi)]; omega
    simp only [List.length_cons] at hn
    cases n with
    | zero => exact ⟨i₀, hi, h0⟩
    | succ b =>
      by_cases hb : b < a i₀
      · obtain ⟨j, hj, hjb⟩ := h.slot b (by omega)
        have hji : j ≠ i₀ := by intro e; rw [e] at hjb; omega
        exact ⟨j, hj, by rw [hy j hj hji, hjb, if_pos hb]⟩
      · obtain ⟨j, hj, hjb⟩ := h.slot (b + 1) (by omega)
        have hji : j ≠ i₀ := by intro e; rw [e] at hjb; omega
        exact ⟨j, hj, by rw [hy j hj hji, hjb, if_neg (by omega)]⟩
  · intro i j hi' hj' hij
    by_cases hii : i = i₀ <;> by_cases hji : j = i₀
    · rw [hii, hji]
    · subst hii
      have := hne j hj' hji
      rw [h0, hy j hj' hji] at hij
      split at hij <;> omega
    · subst hji
      have := hne i hi' hii
      rw [h0, hy i hi' hii] at hij
      split at hij <;> omega
    · apply h.inj i j hi' hj'
      rw [hy i hi' hii, hy j hj' hji] at hij
      have := hne i hi' hii
      have := hne j hj' hji
      split at hij <;> split at hij <;> omega

theorem insert (h : Ranked v k a L) (hi : ¬ v i₀) (hx : x ∉ L)
    (hv : ∀ j, v' j ↔ j = i₀ ∨ v j) (hk0 : k' i₀ = x) (hk : ∀ j, v j → k' j = k j)
    (h0 : a' i₀ = 0) (ha : ∀ j, v j → a' j = a j + 1) : Ranked v' k' a' (x :: L) where
  nodup := List.nodup_cons.mpr ⟨hx, h.nodup⟩
  get := fun j hj => by
    obtain rfl | hj := (hv j).mp hj
    · simp [h0, hk0]
    · simp [ha j hj, hk j hj, h.get j hj]
  slot := fun n hn => by
    cases n with
    | zero => exact ⟨i₀, (hv i₀).mpr (Or.inl rfl), h0⟩
    | succ n =>
      obtain ⟨j, hj, rfl⟩ := h.slot n (by simpa using hn)
      exact ⟨j, (hv j).mpr (Or.inr hj), ha j hj⟩
  inj := fun i j hi' hj' hij => by
    obtain rfl | hi' := (hv i).mp hi' <;> obtain rfl | hj' := (hv j).mp hj'
    · rfl
    · rw [h0, ha j hj'] at hij; omega
    · rw [h0, ha i hi'] at hij; omega
    · rw [ha i hi', ha j hj'] at hij
      exact h.inj i j hi' hj' (by omega)

theorem remove [DecidableEq K] (h : Ranked v k a L) (hi : v i₀)
    (hv : ∀ j, v' j ↔ v j ∧ j ≠ i₀) (hk : ∀ j, v j → j ≠ i₀ → k' j = k j)
    (ha : ∀ j, v j → j ≠ i₀ → a' j = if a i₀ < a j then a j - 1 else a j) :
    Ranked v' k' a' (L.erase (k i₀)) := by
  have hlt := h.age_lt hi
  have hne : ∀ j, v j → j ≠ i₀ → a j ≠ a i₀ := fun j hj hji e => hji (h.inj j i₀ hj hi e)
  refine ⟨h.nodup.erase _, ?_, ?_, ?_⟩
  · intro j hj
    obtain ⟨hj, hji⟩ := (hv j).mp hj
    have hne := hne j hj hji
    have hg := h.get j hj
    rw [h.erase_eq hi, ha j hj hji, hk j hj hji, List.getElem?_eraseIdx]
    split
    · next hgt =>
      rw [if_neg (by omega), show a j - 1 + 1 = a j by omega, hg]
    · next hle => rw [if_pos (by omega), hg]
  · intro n hn
    rw [List.length_erase_of_mem (h.key_mem hi)] at hn
    by_cases hb : n < a i₀
    · obtain ⟨j, hj, hjb⟩ := h.slot n (by omega)
      have hji : j ≠ i₀ := by intro e; rw [e] at hjb; omega
      exact ⟨j, (hv j).mpr ⟨hj, hji⟩, by rw [ha j hj hji, hjb, if_neg (by omega)]⟩
    · obtain ⟨j, hj, hjb⟩ := h.slot (n + 1) (by omega)
      have hji : j ≠ i₀ := by intro e; rw [e] at hjb; omega
      exact ⟨j, (hv j).mpr ⟨hj, hji⟩, by rw [ha j hj hji, hjb, if_pos (by omega)]; omega⟩
  · intro i j hi' hj' hij
    obtain ⟨hi', hii⟩ := (hv i).mp hi'
    obtain ⟨hj', hji⟩ := (hv j).mp hj'
    have := hne i hi' hii
    have := hne j hj' hji
    apply h.inj i j hi' hj'
    rw [ha i hi' hii, ha j hj' hji] at hij
    split at hij <;> split at hij <;> omega

/-- Replacing the oldest is removing it and filling its slot. -/
theorem replace [DecidableEq K] (h : Ranked v k a L) (hi : v i₀) (ho : a i₀ + 1 = L.length)
    (hx : x ∉ L) (hv : ∀ j, v' j ↔ v j) (hk0 : k' i₀ = x) (hk : ∀ j, v j → j ≠ i₀ → k' j = k j)
    (h0 : a' i₀ = 0) (ha : ∀ j, v j → j ≠ i₀ → a' j = a j + 1) :
    Ranked v' k' a' (x :: L.dropLast) := by
  have hdrop : L.erase (k i₀) = L.dropLast := by
    rw [h.erase_eq hi, List.dropLast_eq_eraseIdx]
    omega
  have hrem : Ranked (fun j => v j ∧ j ≠ i₀) k a (L.erase (k i₀)) := by
    apply h.remove hi (fun _ => Iff.rfl) (fun _ _ _ => rfl)
    intro j hj hji
    have := h.age_lt hj
    rw [if_neg (by omega)]
  rw [hdrop] at hrem
  refine hrem.insert (fun h => h.2 rfl) (fun hm => hx (List.mem_of_mem_dropLast hm)) ?_ hk0
    (fun j hj => hk j hj.1 hj.2) h0 (fun j hj => ha j hj.1 hj.2)
  intro j
  rw [hv j]
  by_cases hji : j = i₀
  · subst hji; simp [hi]
  · simp [hji]

/-! Counting slots. -/

/-- There are as many valid slots as keys. -/
theorem card_valid [Fintype ι] [DecidablePred v] (h : Ranked v k a L) :
    (Finset.univ.filter v).card = L.length := by
  rw [← Finset.card_range L.length]
  apply Finset.card_nbij a
  · intro i hi
    simpa using h.age_lt (by simpa using hi)
  · intro i hi j hj hij
    exact h.inj i j (by simpa using hi) (by simpa using hj) hij
  · intro n hn
    obtain ⟨i, hi, hin⟩ := h.slot n (by simpa using hn)
    exact ⟨i, by simpa using hi, hin⟩

theorem length_le_card [Fintype ι] (h : Ranked v k a L) : L.length ≤ Fintype.card ι := by
  classical
  rw [← h.card_valid]
  exact Finset.card_le_univ _

/-- The list is as long as the array exactly when every slot is valid. -/
theorem full_iff [Fintype ι] (h : Ranked v k a L) :
    L.length = Fintype.card ι ↔ ∀ i, v i := by
  classical
  rw [← h.card_valid, Finset.card_eq_iff_eq_univ]
  simp [Finset.filter_eq_self]

/-- In a full array there is an oldest slot. -/
theorem exists_oldest [Fintype ι] {n : Nat} (h : Ranked v k a L) (hall : ∀ i, v i)
    (hcard : Fintype.card ι = n + 1) : ∃ i, a i = n := by
  have hlength : L.length = n + 1 := (h.full_iff.2 hall).trans hcard
  obtain ⟨i, -, hi⟩ := h.slot n (by omega)
  exact ⟨i, hi⟩

/-- Slots that are as old as they are far from the first. -/
theorem finRange (n : Nat) :
    Ranked (fun _ => True) id (fun i : Fin n => i.val) (List.finRange n) where
  nodup := List.nodup_finRange _
  get := by
    intro i _
    have hi : i.val < (List.finRange n).length := by
      rw [List.length_finRange]
      exact i.isLt
    calc (List.finRange n)[i.val]? = some ((List.finRange n)[i.val]) :=
          List.getElem?_eq_getElem hi
      _ = some i := by
          rw [List.getElem_finRange]
          rfl
  slot := by
    intro a ha
    rw [List.length_finRange] at ha
    exact ⟨⟨a, ha⟩, trivial, rfl⟩
  inj := by
    intro i j _ _ hij
    exact Fin.ext hij

/-- Looking for the ages one after the other reads the list off the slots. -/
theorem filterMap_range (h : Ranked v k a L) {f : Nat → Option K} {m : Nat} (hm : L.length ≤ m)
    (hf : ∀ n y, f n = some y ↔ ∃ i, v i ∧ a i = n ∧ k i = y) :
    (List.range m).filterMap f = L := by
  have hget : f = fun n => L[n]? := by
    funext n
    apply Option.ext
    intro y
    rw [hf]
    refine ⟨?_, ?_⟩
    · rintro ⟨i, hi, rfl, rfl⟩
      exact h.get i hi
    · intro hy
      obtain ⟨i, hi, hin⟩ := h.slot n (List.getElem?_eq_some_iff.mp hy).1
      have hki := h.get i hi
      rw [hin, hy] at hki
      exact ⟨i, hi, hin, (Option.some.inj hki).symm⟩
  have hread : ∀ m, (List.range m).filterMap (fun n => L[n]?) = L.take m := by
    intro m
    induction m with
    | zero => rfl
    | succ m ih =>
      rw [List.range_succ, List.filterMap_append, ih, List.take_add_one]
      cases hx : L[m]? <;> simp [hx]
  rw [hget, hread, List.take_of_length_le hm]

end Ranked

/-! ## Recency lists of traces -/

section Trace
variable [DecidableEq K]

/-- The distinct keys of a trace, the most recently accessed first. -/
def recent (t : List K) : List K := t.dedup.reverse

/-- The time of the last access to `x` in `t`: `1` is the first access of the
trace, `0` means that `x` was never accessed. -/
def lastAccess (t : List K) (x : K) : Nat := t.length - t.reverse.idxOf x

/-- One access to a recency list bounded by `n` keys: `x` moves or comes to the
front, and what then exceeds the bound falls off the back. -/
def touch (n : Nat) (L : List K) (x : K) : List K := (x :: L.erase x).take n

theorem recent_nodup (t : List K) : (recent t).Nodup :=
  List.nodup_reverse.mpr t.nodup_dedup

@[simp] theorem mem_recent {t : List K} {x : K} : x ∈ recent t ↔ x ∈ t := by
  simp [recent]

@[simp] theorem recent_length (t : List K) : (recent t).length = t.dedup.length := by
  simp [recent]

theorem dedup_snoc (t : List K) (x : K) : (t ++ [x]).dedup = t.dedup.erase x ++ [x] := by
  induction t with
  | nil => simp
  | cons y t ih =>
    rw [List.cons_append, List.dedup_cons, List.dedup_cons, ih]
    by_cases hyx : y = x
    · subst hyx
      by_cases hy : y ∈ t
      · simp [hy]
      · have hd : t.dedup.erase y = t.dedup := List.erase_of_not_mem (by simpa using hy)
        simp [hy, hd]
    · by_cases hy : y ∈ t
      · simp [hy]
      · simp [hy, hyx]

theorem recent_snoc (t : List K) (x : K) : recent (t ++ [x]) = x :: (recent t).erase x := by
  unfold recent
  rw [dedup_snoc, List.reverse_append, t.nodup_dedup.erase_eq_filter,
    (List.nodup_reverse.mpr t.nodup_dedup).erase_eq_filter, List.filter_reverse]
  rfl

theorem take_erase (R : List K) (x : K) (m : Nat) :
    (R.erase x).take m = ((R.take (m + 1)).erase x).take m := by
  induction R generalizing m with
  | nil => simp
  | cons y R ih =>
    by_cases hyx : y = x
    · subst hyx
      simp
    · cases m with
      | zero => simp
      | succ m => simp [hyx, ih m]

/-- `n` slots accessed by `touch` hold the `n` most recently accessed keys. -/
theorem recent_take_snoc (t : List K) (x : K) (n : Nat) :
    (recent (t ++ [x])).take (n + 1) = touch (n + 1) ((recent t).take (n + 1)) x := by
  rw [recent_snoc, touch, List.take_succ_cons, List.take_succ_cons, take_erase]

theorem touch_hit {n : Nat} {L : List K} {x : K} (hx : x ∈ L) (hn : L.length ≤ n) :
    touch n L x = x :: L.erase x := by
  apply List.take_of_length_le
  rw [List.length_cons, List.length_erase_of_mem hx]
  have := List.length_pos_of_mem hx
  omega

theorem touch_room {n : Nat} {L : List K} {x : K} (hx : x ∉ L) (hn : L.length < n) :
    touch n L x = x :: L := by
  rw [touch, List.erase_of_not_mem hx]
  exact List.take_of_length_le (by rw [List.length_cons]; omega)

theorem touch_full {n : Nat} {L : List K} {x : K} (hx : x ∉ L) (hn : L.length = n + 1) :
    touch (n + 1) L x = x :: L.dropLast := by
  rw [touch, List.erase_of_not_mem hx, List.take_succ_cons, List.dropLast_eq_take, hn]
  rfl

/-! Last accesses. -/

theorem lastAccess_le (t : List K) (x : K) : lastAccess t x ≤ t.length := Nat.sub_le _ _

theorem lastAccess_snoc (t : List K) (x y : K) :
    lastAccess (t ++ [x]) y = if y = x then t.length + 1 else lastAccess t y := by
  unfold lastAccess
  rw [List.reverse_append, List.length_append]
  by_cases hyx : y = x
  · subst hyx; simp
  · simp [hyx, Ne.symm hyx]

/-- Along a recency list the last accesses get older. -/
theorem recent_pairwise (t : List K) :
    (recent t).Pairwise (fun x y => lastAccess t y < lastAccess t x) := by
  induction t using List.reverseRecOn with
  | nil => simp [recent]
  | append_singleton t z ih =>
    rw [recent_snoc, List.pairwise_cons]
    have hne : ∀ y ∈ (recent t).erase z, y ≠ z := fun y hy =>
      ((recent_nodup t).mem_erase_iff.mp hy).1
    refine ⟨?_, ?_⟩
    · intro y hy
      rw [lastAccess_snoc, lastAccess_snoc, if_neg (hne y hy), if_pos rfl]
      have := lastAccess_le t y
      omega
    · apply (ih.sublist List.erase_sublist).imp_of_mem
      intro x y hx hy hxy
      rw [lastAccess_snoc, lastAccess_snoc, if_neg (hne y hy), if_neg (hne x hx)]
      exact hxy

/-- The last key of a prefix of the recency list is the one accessed longest ago. -/
theorem oldest_iff {t : List K} {n : Nat} {q : K} (hq : q ∈ (recent t).take n) :
    q ∉ ((recent t).take n).dropLast ↔
      ∀ r ∈ (recent t).take n, lastAccess t q ≤ lastAccess t r := by
  have hp := (recent_pairwise t).sublist (List.take_sublist n (recent t))
  obtain hnil | ⟨ys, y, hys⟩ := List.eq_nil_or_concat' ((recent t).take n)
  · rw [hnil] at hq; cases hq
  · rw [hys] at hq hp ⊢
    have hlt : ∀ r ∈ ys, lastAccess t y < lastAccess t r := fun r hr =>
      (List.pairwise_append.mp hp).2.2 r hr y (List.mem_singleton_self y)
    rw [List.dropLast_concat]
    refine ⟨?_, ?_⟩
    · intro hn r hr
      have hqy : q = y := by simpa [hn] using hq
      obtain hr | hr := List.mem_append.mp hr
      · rw [hqy]; exact Nat.le_of_lt (hlt r hr)
      · rw [hqy, List.mem_singleton.mp hr]
    · intro hall hn
      have := hall y (by simp)
      have := hlt q hn
      omega

/-- A miss of a full list evicts the key accessed longest ago. -/
theorem touch_evicts_iff {t : List K} {n : Nat} {x q : K} (hx : x ∉ (recent t).take (n + 1))
    (hfull : ((recent t).take (n + 1)).length = n + 1) (hq : q ∈ (recent t).take (n + 1)) :
    q ∉ touch (n + 1) ((recent t).take (n + 1)) x ↔
      ∀ r ∈ (recent t).take (n + 1), lastAccess t q ≤ lastAccess t r := by
  have hqx : q ≠ x := fun e => hx (e ▸ hq)
  rw [← oldest_iff hq, touch_full hx hfull]
  simp [hqx]

/-- **One access.** The slot `i₀` comes to hold `x` and becomes the youngest, and
the valid slots younger than `stop` age. Whether `i₀` held `x` already (then it
ages the slots younger than itself), was free, or was the oldest of a full array
(then it ages them all), the recency list is touched. -/
theorem Ranked.touch [Fintype ι] {v v' : ι → Prop} {k k' : ι → K} {a a' : ι → Nat} {L : List K}
    {x : K} {n : Nat} (h : Ranked v k a L) (i₀ : ι) (stop : Nat) (hcard : Fintype.card ι = n + 1)
    (hv : ∀ j, v' j ↔ j = i₀ ∨ v j) (hk0 : k' i₀ = x) (hk : ∀ j, v j → j ≠ i₀ → k' j = k j)
    (h0 : a' i₀ = 0)
    (ha : ∀ j, v j → j ≠ i₀ → a' j = if a j < stop then a j + 1 else a j)
    (hcase : (v i₀ ∧ k i₀ = x ∧ stop = a i₀) ∨
      x ∉ L ∧ stop = n ∧ (¬ v i₀ ∨ (∀ i, v i) ∧ a i₀ = n)) :
    Ranked v' k' a' (Recency.touch (n + 1) L x) := by
  have hle := h.length_le_card
  obtain ⟨hi, hx, hstop⟩ | ⟨hL, hstop, hi | ⟨hall, hold⟩⟩ := hcase
  · -- a hit
    subst hx
    rw [touch_hit (h.key_mem hi) (by omega)]
    refine (h.bump hi h0 (by rw [← hstop]; exact ha)).congr ?_ ?_ (fun _ _ => rfl)
    · intro j
      rw [hv j]
      exact ⟨fun hj => hj.elim (fun e => e ▸ hi) id, Or.inr⟩
    · intro j hj
      by_cases hji : j = i₀
      · rw [hji, hk0]
      · exact hk j hj hji
  · -- a free slot
    have hlen : L.length ≠ n + 1 := fun e => hi (h.full_iff.mp (by rw [e, hcard]) i₀)
    have hne : ∀ j, v j → j ≠ i₀ := fun j hj e => hi (e ▸ hj)
    rw [touch_room hL (by omega)]
    apply h.insert hi hL hv hk0 (fun j hj => hk j hj (hne j hj)) h0
    intro j hj
    have := h.age_lt hj
    rw [ha j hj (hne j hj), if_pos (by omega)]
  · -- the oldest slot of a full array
    have hlen : L.length = n + 1 := by rw [← hcard]; exact h.full_iff.mpr hall
    rw [touch_full hL hlen]
    refine h.replace (hall i₀) (by omega) hL ?_ hk0 hk h0 ?_
    · intro j
      rw [hv j]
      exact ⟨fun _ => hall j, Or.inr⟩
    · intro j hj hji
      have := h.age_lt hj
      have hne : a j ≠ a i₀ := fun e => hji (h.inj j i₀ hj (hall i₀) e)
      rw [ha j hj hji, if_pos (by omega)]

end Trace

end Recency
