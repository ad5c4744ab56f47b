import SandboxPredictor.Lib.Bitset
import SandboxPredictor.Lib.SortedList
import SandboxPredictor.Word

/- `inc/set.h`: the set of reorder-buffer and queue places that depend on an
   instruction or on a packet.

   Up to twelve values are kept as a sorted array, more of them as a bit array in
   the same memory; `card` tells which. Here the two are the constructors, and
   `card` is a function: the length of the array, or the `SMALL_SIZE` it stays at.
   `join` and `expand` are given the bound `n` of the values by their callers.

   The main result is about every set that can be built: it answers as the
   mathematical set does, whichever way it is kept, and it is kept as an array
   exactly when it has at most twelve members (`Built.eval_search`); its expansion
   lists the members in order (`Built.eval_expand`). -/
namespace SandboxPredictor

/-- `MAX_SIZE / 64`. -/
abbrev SET_WORDS : Nat := 8

def SMALL_SIZE : Nat := 13
def SMALLER_SIZE : Nat := 6

/-- A `TYPE` that the bit array has a place for: below `MAX_SIZE`. -/
abbrev SetValue : Type := Fin (64 * SET_WORDS)

def SetValue.zero : SetValue := ⟨0, by decide⟩

/-- `fastset`. -/
inductive FastSet where
  | values (vs : List SetValue) (sorted : vs.Pairwise (· < ·)) (small : vs.length < SMALL_SIZE)
  | bits (w : Fin SET_WORDS → Word)

namespace FastSet

/-- `fastset()`. -/
def empty : FastSet := values [] List.Pairwise.nil (by decide)

def card : FastSet → Nat
  | values vs _ _ => vs.length
  | bits _ => SMALL_SIZE

/-- `smalltobit`. -/
def smalltobit (vs : List SetValue) : Fin SET_WORDS → Word :=
  vs.foldl Bitset.set (fun _ => 0#64)

/-- `insert`; an array that reaches `SMALL_SIZE` values becomes a bit array. -/
def insert (s : FastSet) (x : SetValue) : FastSet :=
  match s with
  | values [] _ _ => values [x] (List.pairwise_singleton _ _) (Nat.lt_of_sub_eq_succ rfl)
  | values (v :: vs) sorted _ =>
    if h : (SortedList.insert x (v :: vs)).length < SMALL_SIZE then
      values (SortedList.insert x (v :: vs)) (SortedList.pairwise_insert sorted) h
    else bits (smalltobit (SortedList.insert x (v :: vs)))
  | bits w => bits (Bitset.set w x)

/-- `search_small`; `none` is a read outside the array. -/
def searchSmall (vs : List SetValue) (x : SetValue) : Option Bool :=
  if vs.length = 0 then some false
  else if vs.length < SMALLER_SIZE then some (SortedList.linearSearch x vs)
  else SortedList.searchLoop vs x vs.length 0 (vs.length - 1) ((vs.length - 1 : Int).tdiv 2)

/-- `search`. -/
def search (s : FastSet) (x : SetValue) : Option Bool :=
  match s with
  | values [] _ _ => some false
  | values [v] _ _ => some (v = x)
  | values (v :: v' :: vs) _ _ => searchSmall (v :: v' :: vs) x
  | bits w => some (Bitset.get w x)

/-- `join`: the other set's values one by one when it is small, else its words up to
the one of `n`. -/
def join (s other : FastSet) (n : Nat) : FastSet :=
  match other with
  | values vs _ _ => vs.foldl insert s
  | bits v =>
    match s with
    | values us _ _ => bits (Bitset.orWords (smalltobit us) v (((n ||| 63) + 1) / 64))
    | bits w => bits (Bitset.orWords w v (((n ||| 63) + 1) / 64))

/-- `expand`. -/
def expand (s : FastSet) (n : Nat) : List SetValue :=
  match s with
  | values vs _ _ => vs
  | bits w => Bitset.expand w n

/-! ## What a `fastset` stands for -/

/-- The set of values kept, either way. -/
def toFinset : FastSet → Finset SetValue
  | values vs _ _ => vs.toFinset
  | bits w => Bitset.members w

/-- A bit array is kept only for sets too large for the array. -/
def Canonical : FastSet → Prop
  | values _ _ _ => True
  | bits w => SMALL_SIZE ≤ (Bitset.members w).card

@[simp] theorem toFinset_values (vs : List SetValue) (sorted small) :
    (values vs sorted small).toFinset = vs.toFinset := rfl

@[simp] theorem toFinset_bits (w : Fin SET_WORDS → Word) :
    (bits w).toFinset = Bitset.members w := rfl

@[simp] theorem toFinset_empty : empty.toFinset = ∅ := rfl

theorem canonical_empty : empty.Canonical := trivial

theorem members_smalltobit (vs : List SetValue) :
    Bitset.members (smalltobit vs) = vs.toFinset := by
  rw [smalltobit, Bitset.members_foldl_set, Bitset.members_zero, Finset.empty_union]

theorem nodup_of_sorted {vs : List SetValue} (h : vs.Pairwise (· < ·)) : vs.Nodup :=
  h.imp (fun hlt => ne_of_lt hlt)

@[simp] theorem toFinset_insert (s : FastSet) (x : SetValue) :
    (s.insert x).toFinset = Insert.insert x s.toFinset := by
  match s with
  | values [] _ _ => simp [insert]
  | values (v :: vs) sorted _ =>
    have hmem : (SortedList.insert x (v :: vs)).toFinset = Insert.insert x (v :: vs).toFinset := by
      ext y
      simp only [List.mem_toFinset, SortedList.mem_insert, Finset.mem_insert]
    unfold insert
    dsimp only
    split
    · exact hmem
    · rw [toFinset_bits, members_smalltobit]
      exact hmem
  | bits w => simp [insert, Bitset.members_set]

theorem canonical_insert {s : FastSet} (h : s.Canonical) (x : SetValue) :
    (s.insert x).Canonical := by
  match s with
  | values [] _ _ => trivial
  | values (v :: vs) sorted _ =>
    unfold insert
    dsimp only
    split
    · trivial
    · next hlen =>
      have hnodup := nodup_of_sorted (SortedList.pairwise_insert (x := x) sorted)
      rw [Canonical, members_smalltobit, List.toFinset_card_of_nodup hnodup]
      omega
  | bits w =>
    have hgrow : (Bitset.members w).card ≤ (Insert.insert x (Bitset.members w)).card :=
      Finset.card_le_card (Finset.subset_insert x _)
    rw [insert, Canonical, Bitset.members_set]
    exact h.trans hgrow

theorem toFinset_foldl_insert (vs : List SetValue) (s : FastSet) :
    (vs.foldl insert s).toFinset = s.toFinset ∪ vs.toFinset := by
  induction vs generalizing s with
  | nil => simp
  | cons v vs ih => simp [ih, Finset.insert_union, Finset.union_insert]

theorem canonical_foldl_insert (vs : List SetValue) {s : FastSet} (h : s.Canonical) :
    (vs.foldl insert s).Canonical := by
  induction vs generalizing s with
  | nil => exact h
  | cons v vs ih => exact ih (canonical_insert h v)

/-- Under the callers' bound all of the other set is joined. -/
theorem members_orWords {w v : Fin SET_WORDS → Word} {n : Nat}
    (hn : ∀ x ∈ Bitset.members v, x.val < n) :
    Bitset.members (Bitset.orWords w v (((n ||| 63) + 1) / 64))
      = Bitset.members w ∪ Bitset.members v := by
  ext x
  rw [Bitset.lim_eq, Bitset.mem_members, Bitset.get_orWords, Finset.mem_union,
    Bitset.mem_members, Bitset.mem_members, Bool.or_eq_true, Bool.and_eq_true, decide_eq_true_eq]
  constructor
  · tauto
  · rintro (hx | hx)
    · exact Or.inl hx
    · have := hn x (Bitset.mem_members.2 hx)
      exact Or.inr ⟨by omega, hx⟩

theorem toFinset_join (s other : FastSet) {n : Nat} (hn : ∀ x ∈ other.toFinset, x.val < n) :
    (s.join other n).toFinset = s.toFinset ∪ other.toFinset := by
  match other with
  | values vs _ _ => exact toFinset_foldl_insert vs s
  | bits v =>
    match s with
    | values us _ _ =>
      rw [join, toFinset_bits, members_orWords hn, members_smalltobit, toFinset_values,
        toFinset_bits]
    | bits w => exact members_orWords hn

theorem canonical_join {s other : FastSet} (hs : s.Canonical) (ho : other.Canonical) {n : Nat}
    (hn : ∀ x ∈ other.toFinset, x.val < n) : (s.join other n).Canonical := by
  match other with
  | values vs _ _ => exact canonical_foldl_insert vs hs
  | bits v =>
    have hgrow : ∀ w, SMALL_SIZE ≤
        (Bitset.members (Bitset.orWords w v (((n ||| 63) + 1) / 64))).card := by
      intro w
      rw [members_orWords hn]
      exact le_trans ho (Finset.card_le_card Finset.subset_union_right)
    match s with
    | values us _ _ => exact hgrow _
    | bits w => exact hgrow _

/-- The search stays inside the array, ends, and finds exactly the members. -/
theorem search_eq (s : FastSet) (x : SetValue) :
    s.search x = some (decide (x ∈ s.toFinset)) := by
  match s with
  | values [] _ _ => simp [search]
  | values [v] _ _ => simp [search, eq_comm]
  | values (v :: v' :: vs) sorted _ =>
    rw [search, searchSmall, toFinset_values, if_neg (by simp)]
    split
    · rw [SortedList.linearSearch_eq sorted]
      simp
    · rw [SortedList.search_eq sorted (by simp)]
      simp
  | bits w => simp [search]

/-- When the members are below the callers' bound, `expand` lists them in order. -/
theorem expand_eq (s : FastSet) {n : Nat} (hn : ∀ x ∈ s.toFinset, x.val < n) :
    s.expand n = s.toFinset.sort := by
  match s with
  | values vs sorted _ => exact (SortedList.sort_toFinset sorted).symm
  | bits w =>
    have hset : (Bitset.expand w n).toFinset = Bitset.members w := by
      ext x
      rw [List.mem_toFinset, Bitset.mem_expand, Bitset.mem_members]
      exact ⟨fun h => h.2, fun h => ⟨hn x (Bitset.mem_members.2 h), h⟩⟩
    have hsorted := SortedList.sort_toFinset (Bitset.pairwise_expand w n)
    rw [hset] at hsorted
    exact hsorted.symm

theorem canonical_iff {s : FastSet} (h : s.Canonical) :
    s.card < SMALL_SIZE ↔ s.toFinset.card < SMALL_SIZE := by
  match s with
  | values vs sorted small =>
    rw [card, toFinset_values, List.toFinset_card_of_nodup (nodup_of_sorted sorted)]
  | bits w =>
    rw [card, toFinset_bits]
    exact iff_of_false (lt_irrefl _) (not_lt.2 h)

/-! ## Every set that can be built -/

/-- How a set came about: from the empty one, by insertions and joins. -/
inductive Built where
  | empty
  | insert (b : Built) (x : SetValue)
  | join (b other : Built) (n : Nat)

namespace Built

/-- The object the operations leave. -/
def eval : Built → FastSet
  | empty => FastSet.empty
  | insert b x => b.eval.insert x
  | join b other n => b.eval.join other.eval n

/-- The set meant. -/
def meaning : Built → Finset SetValue
  | empty => ∅
  | insert b x => Insert.insert x b.meaning
  | join b other _ => b.meaning ∪ other.meaning

/-- What the callers of `join` and `expand` promise of `n`: it is above the values, and the
bit array reaches that far. Beyond it the two would leave the array. -/
structure Bounds (n : Nat) (S : Finset SetValue) : Prop where
  above : ∀ x ∈ S, x.val < n
  fits : n ≤ 64 * SET_WORDS

/-- Every join is given such a bound of the other set's values. -/
def Bounded : Built → Prop
  | empty => True
  | insert b _ => b.Bounded
  | join b other n => b.Bounded ∧ other.Bounded ∧ Bounds n other.meaning

theorem toFinset_eval {b : Built} (h : b.Bounded) : b.eval.toFinset = b.meaning := by
  induction b with
  | empty => rfl
  | insert b x ih => rw [eval, FastSet.toFinset_insert, ih h, meaning]
  | join b other n ihb iho =>
    obtain ⟨hb, ho, hn⟩ := h
    rw [eval, FastSet.toFinset_join _ _ (by rw [iho ho]; exact hn.above), ihb hb, iho ho, meaning]

theorem canonical_eval {b : Built} (h : b.Bounded) : b.eval.Canonical := by
  induction b with
  | empty => exact FastSet.canonical_empty
  | insert b x ih => exact FastSet.canonical_insert (ih h) x
  | join b other n ihb iho =>
    obtain ⟨hb, ho, hn⟩ := h
    exact FastSet.canonical_join (ihb hb) (iho ho) (by rw [toFinset_eval ho]; exact hn.above)

/-- Every set that can be built answers a search as the set meant does, and is kept as
an array exactly when that has at most twelve members. -/
theorem eval_search {b : Built} (h : b.Bounded) (x : SetValue) :
    b.eval.search x = some (decide (x ∈ b.meaning))
      ∧ (b.eval.card < SMALL_SIZE ↔ b.meaning.card < SMALL_SIZE) := by
  refine ⟨?_, ?_⟩
  · rw [FastSet.search_eq, toFinset_eval h]
  · rw [FastSet.canonical_iff (canonical_eval h), toFinset_eval h]

/-- Places 9 and 3, joined with place 100 under the size of the reorder buffer. -/
def threePlaces : Built :=
  join (insert (insert empty ⟨9, by decide⟩) ⟨3, by decide⟩) (insert empty ⟨100, by decide⟩) 352

theorem threePlaces_bounded : threePlaces.Bounded :=
  ⟨trivial, trivial, by simp [meaning], by decide⟩

theorem eval_search_instance :
    threePlaces.eval.search ⟨100, by decide⟩ = some (decide (⟨100, by decide⟩ ∈ threePlaces.meaning))
      ∧ (threePlaces.eval.card < SMALL_SIZE ↔ threePlaces.meaning.card < SMALL_SIZE) :=
  eval_search threePlaces_bounded _

/-- Expanded under a bound of its values, every set that can be built gives the members
of the set meant, each once and in increasing order. -/
theorem eval_expand {b : Built} (h : b.Bounded) {n : Nat} (hn : Bounds n b.meaning) :
    b.eval.expand n = b.meaning.sort := by
  rw [FastSet.expand_eq _ (by rw [toFinset_eval h]; exact hn.above), toFinset_eval h]

theorem eval_expand_instance : threePlaces.eval.expand 352 = threePlaces.meaning.sort :=
  eval_expand threePlaces_bounded ⟨by simp [threePlaces, meaning], by decide⟩

end Built

end FastSet

end SandboxPredictor
