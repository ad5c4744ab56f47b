import Mathlib.Data.List.Sort
import Mathlib.Order.Basic

/- Maps with ordered keys, as `std::map`: a list of pairs with strictly increasing
   keys, so that it can be gone through from the least key on. Inserting a key that
   is there changes nothing. -/

/-- A finite map from `K` to `V`. -/
structure SortedMap (K V : Type) [LinearOrder K] where
  entries : List (K × V)
  sorted : entries.Pairwise (fun a b => a.1 < b.1)

namespace SortedMap

variable {K V : Type} [LinearOrder K]

/-! ## Lists of pairs -/

/-- The pair put before the first larger key. -/
def insertEntry (k : K) (v : V) : List (K × V) → List (K × V)
  | [] => [(k, v)]
  | e :: es => if e.1 = k then e :: es else if k < e.1 then (k, v) :: e :: es
    else e :: insertEntry k v es

section entries

variable {k k' : K} {v v' : V} {e : K × V} {es : List (K × V)}

theorem mem_insertEntry (h : e ∈ insertEntry k v es) : e = (k, v) ∨ e ∈ es := by
  induction es with
  | nil => exact Or.inl (List.mem_singleton.1 h)
  | cons a as ih =>
    unfold insertEntry at h
    split_ifs at h
    · exact Or.inr h
    · rcases List.mem_cons.1 h with rfl | h
      · exact Or.inl rfl
      · exact Or.inr h
    · rcases List.mem_cons.1 h with rfl | h
      · exact Or.inr List.mem_cons_self
      · exact (ih h).imp_right (List.mem_cons_of_mem a)

theorem pairwise_insertEntry (h : es.Pairwise (fun a b => a.1 < b.1)) :
    (insertEntry k v es).Pairwise (fun a b => a.1 < b.1) := by
  induction es with
  | nil => exact List.pairwise_singleton _ _
  | cons a as ih =>
    obtain ⟨ha, has⟩ := List.pairwise_cons.1 h
    unfold insertEntry
    split_ifs with heq hlt
    · exact h
    · apply List.pairwise_cons.2 ⟨?_, h⟩
      intro b hb
      rcases List.mem_cons.1 hb with rfl | hb
      · exact hlt
      · exact hlt.trans (ha b hb)
    · apply List.pairwise_cons.2 ⟨?_, ih has⟩
      intro b hb
      rcases mem_insertEntry hb with rfl | hb
      · exact lt_of_le_of_ne (not_lt.1 hlt) heq
      · exact ha b hb

/-- One pair for each key. -/
theorem unique_of_sorted (h : es.Pairwise (fun a b => a.1 < b.1)) (hv : (k, v) ∈ es)
    (hv' : (k, v') ∈ es) : v = v' := by
  induction es with
  | nil => cases hv
  | cons a as ih =>
    obtain ⟨ha, has⟩ := List.pairwise_cons.1 h
    rcases List.mem_cons.1 hv with rfl | hin
    · rcases List.mem_cons.1 hv' with heq | hin'
      · exact (congrArg Prod.snd heq).symm
      · exact absurd (ha (k, v') hin') (lt_irrefl k)
    · rcases List.mem_cons.1 hv' with rfl | hin'
      · exact absurd (ha (k, v) hin) (lt_irrefl k)
      · exact ih has hin hin'

end entries

/-! ## The operations -/

def empty : SortedMap K V := ⟨[], List.Pairwise.nil⟩

/-- `find`. -/
def find (m : SortedMap K V) (k : K) : Option V :=
  (m.entries.find? fun e => e.1 = k).map (·.2)

/-- `insert`. -/
def insert (m : SortedMap K V) (k : K) (v : V) : SortedMap K V :=
  ⟨insertEntry k v m.entries, pairwise_insertEntry m.sorted⟩

/-- `erase`. -/
def erase (m : SortedMap K V) (k : K) : SortedMap K V :=
  ⟨m.entries.filter fun e => e.1 ≠ k, m.sorted.filter _⟩

/-- A new value for the key, if it is there. -/
def assign (m : SortedMap K V) (k : K) (v : V) : SortedMap K V :=
  ⟨m.entries.map fun e => if e.1 = k then (k, v) else e, by
    refine m.sorted.map _ ?_
    intro a b hab
    have hkey : ∀ e : K × V, (if e.1 = k then (k, v) else e).1 = e.1 := by
      intro e
      split
      · next he => exact he.symm
      · rfl
    rwa [hkey, hkey]⟩

/-- The first pair, in the order of the keys, whose key has the property. -/
def first (m : SortedMap K V) (p : K → Bool) : Option (K × V) := m.entries.find? fun e => p e.1

def size (m : SortedMap K V) : Nat := m.entries.length

variable {m : SortedMap K V} {k k' : K} {v v' : V}

theorem find_eq_some : m.find k = some v ↔ (k, v) ∈ m.entries := by
  unfold find
  constructor
  · intro h
    obtain ⟨e, he, rfl⟩ := Option.map_eq_some_iff.1 h
    have hk : e.1 = k := by simpa using List.find?_some he
    rw [← hk]
    exact List.mem_of_find?_eq_some he
  · intro h
    cases he : m.entries.find? (fun e => e.1 = k) with
    | none =>
      have hnot := List.find?_eq_none.1 he (k, v) h
      simp at hnot
    | some e =>
      have hk : e.1 = k := by simpa using List.find?_some he
      have hmem : (k, e.2) ∈ m.entries := by
        rw [← hk]
        exact List.mem_of_find?_eq_some he
      rw [Option.map_some, unique_of_sorted m.sorted hmem h]

theorem find_eq_none : m.find k = none ↔ ∀ v, (k, v) ∉ m.entries := by
  rw [Option.eq_none_iff_forall_ne_some]
  simp only [ne_eq, find_eq_some]

@[simp] theorem find_empty : (empty : SortedMap K V).find k = none := rfl

@[simp] theorem size_empty : (empty : SortedMap K V).size = 0 := rfl

theorem mem_insert (hnew : m.find k = none) {e : K × V} :
    e ∈ (m.insert k v).entries ↔ e = (k, v) ∨ e ∈ m.entries := by
  refine ⟨mem_insertEntry, ?_⟩
  have hkey := find_eq_none.1 hnew
  show _ → e ∈ insertEntry k v m.entries
  generalize m.entries = es at hkey
  induction es with
  | nil => simp [insertEntry]
  | cons a as ih =>
    have hne : a.1 ≠ k := by
      rintro rfl
      exact hkey a.2 List.mem_cons_self
    have hrest := ih fun v hv => hkey v (List.mem_cons_of_mem a hv)
    unfold insertEntry
    rw [if_neg hne]
    split
    · simp only [List.mem_cons]
      tauto
    · simp only [List.mem_cons]
      tauto

theorem find_insert (hnew : m.find k = none) :
    (m.insert k v).find k' = if k' = k then some v else m.find k' := by
  apply Option.ext
  intro w
  rw [find_eq_some, mem_insert hnew, Prod.mk.injEq]
  split
  · next hk =>
    subst hk
    simp [find_eq_none.1 hnew, eq_comm]
  · next hk => simp [hk, find_eq_some]

theorem find_erase : (m.erase k).find k' = if k' = k then none else m.find k' := by
  apply Option.ext
  intro w
  simp only [find_eq_some, erase, List.mem_filter]
  split
  · next hk => simp [hk]
  · next hk => simp [hk, find_eq_some]

theorem find_assign : (m.assign k v).find k'
    = if k' = k then (m.find k).map (fun _ => v) else m.find k' := by
  apply Option.ext
  intro w
  simp only [find_eq_some, assign, List.mem_map]
  split
  · next hk =>
    subst hk
    constructor
    · rintro ⟨e, he, heq⟩
      split at heq
      · next hek =>
        have hfind : m.find k' = some e.2 := find_eq_some.2 (hek ▸ he)
        rw [hfind]
        exact congrArg some (congrArg Prod.snd heq)
      · next hek => exact absurd (congrArg Prod.fst heq) hek
    · intro h
      obtain ⟨u, hu, rfl⟩ := Option.map_eq_some_iff.1 h
      exact ⟨(k', u), find_eq_some.1 hu, if_pos rfl⟩
  · next hk =>
    constructor
    · rintro ⟨e, he, heq⟩
      split at heq
      · exact absurd (congrArg Prod.fst heq).symm hk
      · exact find_eq_some.2 (heq ▸ he)
    · intro h
      exact ⟨(k', w), find_eq_some.1 h, if_neg hk⟩

theorem size_insert (hnew : m.find k = none) : (m.insert k v).size = m.size + 1 := by
  have hkey := find_eq_none.1 hnew
  show (insertEntry k v m.entries).length = m.entries.length + 1
  generalize m.entries = es at hkey
  induction es with
  | nil => rfl
  | cons a as ih =>
    have hne : a.1 ≠ k := by
      rintro rfl
      exact hkey a.2 List.mem_cons_self
    unfold insertEntry
    rw [if_neg hne]
    split
    · rfl
    · rw [List.length_cons, ih fun v hv => hkey v (List.mem_cons_of_mem a hv), List.length_cons]

theorem size_erase (h : m.find k = some v) : (m.erase k).size + 1 = m.size := by
  have hmem := find_eq_some.1 h
  have hsorted := m.sorted
  show (m.entries.filter fun e => e.1 ≠ k).length + 1 = m.entries.length
  generalize m.entries = es at hmem hsorted
  induction es with
  | nil => cases hmem
  | cons a as ih =>
    obtain ⟨ha, has⟩ := List.pairwise_cons.1 hsorted
    rcases List.mem_cons.1 hmem with rfl | hmem
    · have hall : as.filter (fun e => e.1 ≠ k) = as := by
        apply List.filter_eq_self.2
        intro e he
        simpa using (ha e he).ne'
      rw [List.filter_cons_of_neg (by simp), hall, List.length_cons]
    · have hne : a.1 ≠ k := (ha _ hmem).ne
      rw [List.filter_cons_of_pos (by simpa using hne), List.length_cons, ih hmem has,
        List.length_cons]

@[simp] theorem size_assign : (m.assign k v).size = m.size := by
  simp [size, assign]

theorem find_of_first {p : K → Bool} {e : K × V} (h : m.first p = some e) :
    m.find e.1 = some e.2 ∧ p e.1 = true :=
  ⟨find_eq_some.2 (List.mem_of_find?_eq_some h), by simpa using List.find?_some h⟩

theorem exists_first {p : K → Bool} (hp : ∀ k, p k = true) (hpos : 0 < m.size) :
    ∃ e, m.first p = some e := by
  obtain ⟨e, he⟩ := List.exists_mem_of_length_pos hpos
  rw [first, ← Option.isSome_iff_exists, List.find?_isSome]
  exact ⟨e, he, hp e.1⟩

end SortedMap
