import Mathlib.Data.List.Basic

/- Segmented LRU over two recency lists of at most `n` keys each. A key enters
   the probationary list; accessed again there, it is promoted to the protected
   list, and the key a full protected list then drops is demoted to the front of
   the probationary one. -/
namespace SegmentedLRU

variable {K : Type}

/-- The two lists, each with its most recently accessed key first. -/
structure Lists (K : Type) where
  prot : List K
  prob : List K
  deriving DecidableEq, Repr

def Lists.empty : Lists K := ⟨[], []⟩

theorem mem_dropLast_or {L : List K} {q : K} (hq : q ∈ L) :
    q ∈ L.dropLast ∨ L.getLast? = some q := by
  rcases List.eq_nil_or_concat' L with rfl | ⟨ys, y, rfl⟩
  · cases hq
  · rcases List.mem_append.mp hq with h | h
    · exact Or.inl (by simpa using h)
    · rw [List.mem_singleton.mp h]
      exact Or.inr (by simp)

variable [DecidableEq K]

/-- One access to `x`. -/
def access (n : Nat) (m : Lists K) (x : K) : Lists K :=
  if x ∈ m.prot then ⟨x :: m.prot.erase x, m.prob⟩
  else if x ∈ m.prob then
    if m.prot.length < n then ⟨x :: m.prot, m.prob.erase x⟩
    else ⟨x :: m.prot.dropLast, m.prot.getLast?.toList ++ m.prob.erase x⟩
  else if m.prob.length < n then ⟨m.prot, x :: m.prob⟩
  else ⟨m.prot, x :: m.prob.dropLast⟩

/-- The lists after the accesses of a trace. -/
def after (n : Nat) (t : List K) : Lists K := t.foldl (access n) Lists.empty

@[simp] theorem after_snoc (n : Nat) (t : List K) (x : K) :
    after n (t ++ [x]) = access n (after n t) x := by
  simp [after]

/-- Some list holds `x`. -/
def Lists.Holds (m : Lists K) (x : K) : Prop := x ∈ m.prot ∨ x ∈ m.prob

/-- An access holds its key and what was held, all but the oldest key of a full
probationary list on a miss. -/
theorem access_keeps {n : Nat} {m : Lists K} {x q : K} (hle : m.prob.length ≤ n)
    (hq : m.Holds q) : (access n m x).Holds q ∨
      ¬ m.Holds x ∧ m.prob.length = n ∧ m.prob.getLast? = some q := by
  have hne : ∀ {L : List K}, q ∈ L → q = x ∨ q ∈ L.erase x := fun {L} hm => by
    by_cases hqx : q = x
    · exact Or.inl hqx
    · exact Or.inr ((List.mem_erase_of_ne hqx).mpr hm)
  unfold access
  split
  · -- protected hit
    apply Or.inl
    rcases hq with hq | hq
    · exact Or.inl (by simpa using hne hq)
    · exact Or.inr hq
  · split
    · split
      · apply Or.inl
        rcases hq with hq | hq
        · exact Or.inl (List.mem_cons_of_mem x hq)
        · rcases hne hq with hq | hq
          · exact Or.inl (by simp [hq])
          · exact Or.inr hq
      · -- promotion into a full protected list: its oldest key is demoted
        apply Or.inl
        rcases hq with hq | hq
        · rcases mem_dropLast_or hq with hq | hq
          · exact Or.inl (List.mem_cons_of_mem x hq)
          · exact Or.inr (by simp [hq])
        · rcases hne hq with hq | hq
          · exact Or.inl (by simp [hq])
          · exact Or.inr (List.mem_append_right _ hq)
    · split
      · apply Or.inl
        rcases hq with hq | hq
        · exact Or.inl hq
        · exact Or.inr (List.mem_cons_of_mem x hq)
      · next hprot hprob hfull =>
        rcases hq with hq | hq
        · exact Or.inl (Or.inl hq)
        · rcases mem_dropLast_or hq with hq | hq
          · exact Or.inl (Or.inr (List.mem_cons_of_mem x hq))
          · exact Or.inr ⟨fun hx => hx.elim hprot hprob, by omega, hq⟩

/-- `count` is 2 at least for the protected keys, and 1 at least for the probationary ones. -/
structure Lists.Counted (m : Lists K) (count : K → Nat) : Prop where
  prot : ∀ q ∈ m.prot, 2 ≤ count q
  prob : ∀ q ∈ m.prob, 1 ≤ count q

section
variable {n : Nat} {m : Lists K} {x : K} {count count' : K → Nat}

omit [DecidableEq K] in
theorem Lists.Counted.empty (count : K → Nat) : (Lists.empty : Lists K).Counted count where
  prot := by simp [Lists.empty]
  prob := by simp [Lists.empty]

omit [DecidableEq K] in
theorem Lists.Counted.mono (h : m.Counted count) (hle : ∀ q, count q ≤ count' q) :
    m.Counted count' where
  prot := fun q hq => Nat.le_trans (h.prot q hq) (hle q)
  prob := fun q hq => Nat.le_trans (h.prob q hq) (hle q)

omit [DecidableEq K] in
theorem forall_mem_cons_of_subset {P : K → Prop} {L L' : List K} (hx : P x)
    (h : ∀ q ∈ L, P q) (hsub : L' ⊆ L) : ∀ q ∈ x :: L', P q := by
  rw [List.forall_mem_cons]
  exact ⟨hx, fun q hq => h q (hsub hq)⟩

/-- An access that is counted keeps the lists counted. -/
theorem Lists.Counted.access (h : m.Counted count) (hle : ∀ q, count q ≤ count' q)
    (hx : count x < count' x) : (SegmentedLRU.access n m x).Counted count' := by
  have h' := h.mono hle
  unfold SegmentedLRU.access
  split
  · next hprot =>
    exact ⟨forall_mem_cons_of_subset (h'.prot x hprot) h'.prot List.erase_subset, h'.prob⟩
  split
  · next hprob =>
    -- a promotion: counted once already, and now again
    have hx2 : 2 ≤ count' x := by
      have hx1 := h.prob x hprob
      omega
    have herase : ∀ q ∈ m.prob.erase x, 1 ≤ count' q :=
      fun q hq => h'.prob q (List.mem_of_mem_erase hq)
    split
    · exact ⟨forall_mem_cons_of_subset hx2 h'.prot (List.Subset.refl _), herase⟩
    · refine ⟨forall_mem_cons_of_subset hx2 h'.prot (List.dropLast_subset _), ?_⟩
      intro q hq
      obtain hq | hq := List.mem_append.1 hq
      · -- the key demoted was a protected one
        have hlast := List.mem_of_getLast? (Option.mem_toList.1 hq)
        exact Nat.le_of_lt (h'.prot q hlast)
      · exact herase q hq
  · have hx1 : 1 ≤ count' x := by omega
    split
    · exact ⟨h'.prot, forall_mem_cons_of_subset hx1 h'.prob (List.Subset.refl _)⟩
    · exact ⟨h'.prot, forall_mem_cons_of_subset hx1 h'.prob (List.dropLast_subset _)⟩

end

end SegmentedLRU
