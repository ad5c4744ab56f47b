import Mathlib.Data.Finset.Card
import Mathlib.Data.Nat.Bitwise
import SandboxPredictor.Lib.SortedMap
import SandboxPredictor.Lib.Mealy

/- `va_to_pa` of `src/main.cc`: virtual pages are given physical ones as they are
   first used, one after the other or at random, and when the memory is full a page
   that is in use is replaced. -/
namespace SandboxPredictor

def LOG2_PAGE_SIZE : Nat := 12
def LOG2_BLOCK_SIZE : Nat := 6
def DRAM_PAGES : Nat := 1048576

/-- `lg2`: how often `n` can be halved before it is 0, less one. -/
def lg2 (n : Nat) : Nat := Nat.log2 n

/-- `rotr64`. -/
def rotr64 (n c : Nat) : Nat := ((n >>> c) ||| (n <<< ((64 - c) % 64))) % 2 ^ 64

/-- What does not change: the number of cores and the latencies. -/
structure PagingConfig where
  NUM_CPUS : Nat := 1
  PAGE_TABLE_LATENCY : Nat := 0
  SWAP_LATENCY : Nat := 0

/-- A call of `va_to_pa` in the cycle `now`, with what it draws from `champsim_rand` and
`rand()`. -/
structure PageRequest where
  cpu : Nat
  va : Nat
  uniqueVpage : Nat
  isCode : Bool
  now : Nat
  draws : List Nat
  rand : Nat

/-- `draw_rand` draws from 36 bits. -/
def PageRequest.Drawn (r : PageRequest) : Prop := ∀ d ∈ r.draws, d < 2 ^ 36

instance (r : PageRequest) : Decidable r.Drawn :=
  inferInstanceAs (Decidable (∀ d ∈ r.draws, d < 2 ^ 36))

/-- A call for one of the cores, with a page number of 52 bits. -/
structure PageRequest.Valid (cfg : PagingConfig) (r : PageRequest) : Prop where
  drawn : r.Drawn
  cpu : r.cpu < cfg.NUM_CPUS
  page : r.uniqueVpage < 2 ^ 52

/-- The page table and what is counted. -/
structure Paging where
  pageTable : SortedMap Nat Nat := SortedMap.empty
  inverseTable : SortedMap Nat Nat := SortedMap.empty
  recentPage : SortedMap Nat Nat := SortedMap.empty
  uniqueCl : Nat → SortedMap Nat Nat := fun _ => SortedMap.empty
  previousPpage : Nat := 0
  numAdjacentPage : Nat := 0
  allocatedPages : Nat := 0
  numCl : Nat → Nat := fun _ => 0
  numPage : Nat → Nat := fun _ => 0
  minorFault : Nat → Nat := fun _ => 0
  majorFault : Nat → Nat := fun _ => 0
  stallCycle : Nat → Nat := fun _ => 0

/-- The physical address, and the translation that was dropped to get it: its entries are
taken out of the TLBs and the caches. -/
structure PageReply where
  pa : Nat
  invalidated : Option (Nat × Nat)

namespace Paging

variable (cfg : PagingConfig)

def highBitMask (cpu : Nat) : Nat := rotr64 cpu (lg2 cfg.NUM_CPUS)

def uniqueVa (r : PageRequest) : Nat := r.va ||| highBitMask cfg r.cpu

def vpage (r : PageRequest) : Nat := r.uniqueVpage ||| highBitMask cfg r.cpu

/-- The cache line of a call. -/
def lineOf (r : PageRequest) : Nat := uniqueVa cfg r >>> LOG2_BLOCK_SIZE

/-- The footprint in cache lines. -/
def countLine (cpu line : Nat) (s : Paging) : Paging :=
  match (s.uniqueCl cpu).find line with
  | none => { s with
      uniqueCl := Function.update s.uniqueCl cpu ((s.uniqueCl cpu).insert line 0),
      numCl := Function.update s.numCl cpu (s.numCl cpu + 1) }
  | some n => { s with
      uniqueCl := Function.update s.uniqueCl cpu ((s.uniqueCl cpu).assign line (n + 1)) }

/-- The search for an empty physical page from `ppage` on: the page, and whether the pages
are fragmented. `none`: it still goes on when `draws` have been drawn. -/
def findEmpty (inverse : SortedMap Nat Nat) : List Nat → Nat → Bool → Option (Nat × Bool)
  | [], ppage, fragmented => if inverse.find ppage = none then some (ppage, fragmented) else none
  | d :: ds, ppage, fragmented =>
    if inverse.find ppage = none then some (ppage, fragmented) else findEmpty inverse ds d true

/-- The first page that is tried. -/
def tryPages (s : Paging) (draws : List Nat) : Option (Nat × Bool) :=
  if 0 < s.numAdjacentPage then findEmpty s.inverseTable draws (s.previousPpage + 1) false
  else match draws with
    | [] => none
    | d :: ds => findEmpty s.inverseTable ds d true

/-- A page of the memory that is not in use. -/
def allocate (r : PageRequest) (vpage : Nat) (s : Paging) : Option Paging :=
  (s.tryPages r.draws).map fun (ppage, fragmented) =>
    { s with
      pageTable := s.pageTable.insert vpage ppage
      inverseTable := s.inverseTable.insert ppage vpage
      previousPpage := ppage
      -- at 0 the count wraps, but then the pages are fragmented
      numAdjacentPage := if fragmented then 1 <<< (r.rand % 10) else s.numAdjacentPage - 1
      numPage := Function.update s.numPage r.cpu (s.numPage r.cpu + 1)
      allocatedPages := s.allocatedPages + 1
      minorFault := Function.update s.minorFault r.cpu (s.minorFault r.cpu + 1) }

/-- The page of another translation, which is dropped; `none` is a failed assertion. -/
def replace (r : PageRequest) (vpage : Nat) (s : Paging) : Option ((Nat × Nat) × Paging) :=
  match s.pageTable.first fun v => s.recentPage.find v = none with
  | none => none
  | some (nruVpage, mappedPpage) =>
    if s.inverseTable.find mappedPpage = none then none
    else some ((nruVpage, mappedPpage), { s with
      pageTable := (s.pageTable.erase nruVpage).insert vpage mappedPpage
      inverseTable := s.inverseTable.assign mappedPpage vpage
      majorFault := Function.update s.majorFault r.cpu (s.majorFault r.cpu + 1) })

/-- A translation for the page, found or made. -/
def translate (r : PageRequest) (vpage : Nat) (s : Paging) :
    Option (Option (Nat × Nat) × Paging) :=
  match s.pageTable.find vpage with
  | some _ => some (none, s)
  | none =>
    if DRAM_PAGES ≤ s.allocatedPages then (s.replace r vpage).map fun (e, s') => (some e, s')
    else (s.allocate r vpage).map fun s' => (none, s')

/-- The penalty of a data access. -/
def stall (r : PageRequest) (swap : Bool) (s : Paging) : Paging :=
  if r.isCode then s
  else { s with
    stallCycle := Function.update s.stallCycle r.cpu
      (r.now + if swap then cfg.SWAP_LATENCY else cfg.PAGE_TABLE_LATENCY) }

/-- `va_to_pa`; `none` is a failed assertion, or that the search for an empty page has not
ended. -/
def vaToPa (r : PageRequest) (s : Paging) : Option (PageReply × Paging) :=
  if r.va = 0 then none
  else
    let s₁ := s.countLine r.cpu (lineOf cfg r)
    (s₁.translate r (vpage cfg r)).bind fun (invalidated, s₂) =>
      (s₂.pageTable.find (vpage cfg r)).map fun ppage =>
        let voffset := uniqueVa cfg r &&& (2 ^ LOG2_PAGE_SIZE - 1)
        (⟨(ppage <<< LOG2_PAGE_SIZE) % 2 ^ 64 ||| voffset, invalidated⟩,
          s₂.stall cfg r invalidated.isSome)

/-- A call as a step of a machine. -/
def step (s : Paging) (r : PageRequest) : Option PageReply × Paging :=
  match s.vaToPa cfg r with
  | none => (none, s)
  | some (reply, s') => (some reply, s')

/-! ## What a call keeps -/

/-- The two tables are inverse to each other, and the rest agrees with them. -/
structure Inv (s : Paging) : Prop where
  inverse : ∀ v p, s.pageTable.find v = some p ↔ s.inverseTable.find p = some v
  recent : s.recentPage = SortedMap.empty
  allocated : s.allocatedPages = s.pageTable.size
  fits : s.pageTable.size ≤ DRAM_PAGES
  bound : ∀ v p, s.pageTable.find v = some p → p < 2 ^ 36 + 512
  next : s.previousPpage + s.numAdjacentPage < 2 ^ 36 + 512
  lines : ∀ cpu, s.numCl cpu = (s.uniqueCl cpu).size

variable {cfg} {s s' : Paging} {r : PageRequest} {v w p : Nat}

theorem inv_init : ({} : Paging).Inv := by
  refine ⟨?_, rfl, rfl, Nat.zero_le _, ?_, ?_, fun _ => rfl⟩
  · intro v p
    simp
  · intro v p h
    simp at h
  · decide

/-- Two pages in use have different physical pages. -/
theorem Inv.injective (h : s.Inv) (hv : s.pageTable.find v = some p)
    (hw : s.pageTable.find w = some p) : v = w :=
  Option.some.inj (((h.inverse v p).1 hv).symm.trans ((h.inverse w p).1 hw))

theorem Inv.countLine (h : s.Inv) (cpu line : Nat) : (s.countLine cpu line).Inv := by
  unfold Paging.countLine
  split
  · next hnew =>
    refine ⟨h.inverse, h.recent, h.allocated, h.fits, h.bound, h.next, ?_⟩
    intro c
    by_cases hc : c = cpu
    · subst hc
      simp only [Function.update_self, SortedMap.size_insert hnew, h.lines]
    · simp only [Function.update_of_ne hc, h.lines]
  · refine ⟨h.inverse, h.recent, h.allocated, h.fits, h.bound, h.next, ?_⟩
    intro c
    by_cases hc : c = cpu
    · subst hc
      simp only [Function.update_self, SortedMap.size_assign, h.lines]
    · simp only [Function.update_of_ne hc, h.lines]

/-- The page that is found is empty: the one tried first, or one of the draws. -/
theorem findEmpty_spec {inverse : SortedMap Nat Nat} {draws : List Nat} {ppage : Nat}
    {fragmented : Bool} {res : Nat × Bool}
    (h : findEmpty inverse draws ppage fragmented = some res) :
    inverse.find res.1 = none ∧
      (res = (ppage, fragmented) ∨ (res.1 ∈ draws ∧ res.2 = true)) := by
  induction draws generalizing ppage fragmented with
  | nil =>
    unfold findEmpty at h
    split at h
    · next hfree =>
      obtain rfl := Option.some.inj h
      exact ⟨hfree, Or.inl rfl⟩
    · cases h
  | cons d ds ih =>
    unfold findEmpty at h
    split at h
    · next hfree =>
      obtain rfl := Option.some.inj h
      exact ⟨hfree, Or.inl rfl⟩
    · obtain ⟨hfree, hres⟩ := ih h
      refine ⟨hfree, Or.inr ?_⟩
      rcases hres with rfl | ⟨hmem, htrue⟩
      · exact ⟨List.mem_cons_self, rfl⟩
      · exact ⟨List.mem_cons_of_mem d hmem, htrue⟩

theorem findEmpty_eq_none {inverse : SortedMap Nat Nat} {draws : List Nat} {ppage : Nat}
    {fragmented : Bool} (h : findEmpty inverse draws ppage fragmented = none) :
    inverse.find ppage ≠ none ∧ ∀ d ∈ draws, inverse.find d ≠ none := by
  induction draws generalizing ppage fragmented with
  | nil =>
    unfold findEmpty at h
    split at h
    · cases h
    · next hused =>
      refine ⟨hused, ?_⟩
      intro d hd
      cases hd
  | cons d ds ih =>
    unfold findEmpty at h
    split at h
    · cases h
    · next hused =>
      obtain ⟨hd, hds⟩ := ih h
      exact ⟨hused, List.forall_mem_cons.2 ⟨hd, hds⟩⟩

/-- Contiguous pages stay in the range of the draws and the longest run of pages. -/
theorem Inv.tryPages {res : Nat × Bool} (h : s.Inv) (hr : r.Drawn)
    (ht : s.tryPages r.draws = some res) :
    s.inverseTable.find res.1 = none ∧ res.1 < 2 ^ 36 + 512 ∧
      (res.2 = true ∧ res.1 < 2 ^ 36 ∨
        res.2 = false ∧ res.1 = s.previousPpage + 1 ∧ 0 < s.numAdjacentPage) := by
  have hnext := h.next
  unfold Paging.tryPages at ht
  split at ht
  · next hpos =>
    obtain ⟨hfree, rfl | ⟨hmem, htrue⟩⟩ := findEmpty_spec ht
    · exact ⟨hfree, by dsimp only; omega, Or.inr ⟨rfl, rfl, hpos⟩⟩
    · have hlt := hr _ hmem
      exact ⟨hfree, by omega, Or.inl ⟨htrue, hlt⟩⟩
  · split at ht
    · cases ht
    · next d ds hdraws =>
      obtain ⟨hfree, hres⟩ := findEmpty_spec ht
      have hlt : res.1 < 2 ^ 36 := by
        rcases hres with rfl | ⟨hmem, -⟩
        · exact hr d (hdraws ▸ List.mem_cons_self)
        · exact hr res.1 (hdraws ▸ List.mem_cons_of_mem d hmem)
      have htrue : res.2 = true := by
        rcases hres with rfl | ⟨-, htrue⟩
        · rfl
        · exact htrue
      exact ⟨hfree, by omega, Or.inl ⟨htrue, hlt⟩⟩

theorem shift_rand_le (n : Nat) : 1 <<< (n % 10) ≤ 512 := by
  have hlt : n % 10 < 10 := Nat.mod_lt _ (by decide)
  rw [Nat.one_shiftLeft]
  calc 2 ^ (n % 10) ≤ 2 ^ 9 := Nat.pow_le_pow_right (by decide) (by omega)
    _ = 512 := rfl

/-- What a call does to the translations: `v` has one afterwards, the one that is dropped has
none, and the others stay. -/
structure Translates (s s' : Paging) (v : Nat) (dropped : Option (Nat × Nat)) : Prop where
  found : ∃ p, s'.pageTable.find v = some p
  kept : ∀ p, s.pageTable.find v = some p → s'.pageTable.find v = some p ∧ dropped = none
  others : ∀ w, w ≠ v → s'.pageTable.find w
    = if dropped.map (·.1) = some w then none else s.pageTable.find w
  dropped : ∀ e, dropped = some e → s.pageTable.find e.1 = some e.2

theorem Inv.allocate (h : s.Inv) (hr : r.Drawn) (hv : s.pageTable.find v = none)
    (hroom : ¬ DRAM_PAGES ≤ s.allocatedPages) (ha : s.allocate r v = some s') :
    s'.Inv ∧ Translates s s' v none := by
  obtain ⟨⟨q, fragmented⟩, ht, rfl⟩ := Option.map_eq_some_iff.1 ha
  obtain ⟨hfree, hlt, hnext⟩ := h.tryPages hr ht
  dsimp only at hfree hlt hnext
  have hbound := h.next
  refine ⟨⟨?_, h.recent, ?_, ?_, ?_, ?_, h.lines⟩, ⟨q, ?_⟩, ?_, ?_, ?_⟩
  · intro w p
    simp only [SortedMap.find_insert hv, SortedMap.find_insert hfree]
    split
    · next hw =>
      subst hw
      split
      · next hp => simp [hp]
      · next hp => simp [← h.inverse, hv, Ne.symm hp]
    · next hw =>
      split
      · next hp => simp [h.inverse, hp, hfree, Ne.symm hw]
      · exact h.inverse w p
  · dsimp only
    rw [SortedMap.size_insert hv, h.allocated]
  · dsimp only
    rw [SortedMap.size_insert hv]
    have := h.allocated
    omega
  · intro w p
    simp only [SortedMap.find_insert hv]
    split
    · intro hp
      obtain rfl := Option.some.inj hp
      exact hlt
    · exact h.bound w p
  · have hrand := shift_rand_le r.rand
    dsimp only
    rcases hnext with ⟨hfrag, hq⟩ | ⟨hfrag, hq, hpos⟩
    · rw [if_pos hfrag]
      omega
    · rw [hfrag, if_neg Bool.false_ne_true]
      omega
  · simp [SortedMap.find_insert hv]
  · intro p hp
    rw [hv] at hp
    cases hp
  · intro w hw
    simp [SortedMap.find_insert hv, hw]
  · intro e he
    cases he

theorem Inv.replace {e : Nat × Nat} (h : s.Inv) (hv : s.pageTable.find v = none)
    (hre : s.replace r v = some (e, s')) : s'.Inv ∧ Translates s s' v (some e) := by
  unfold Paging.replace at hre
  split at hre
  · cases hre
  · next u q hfirst =>
    split at hre
    · cases hre
    · next hq =>
      rw [Option.some.injEq, Prod.mk.injEq] at hre
      obtain ⟨rfl, rfl⟩ := hre
      obtain ⟨hu, -⟩ := SortedMap.find_of_first hfirst
      dsimp only at hu
      have hne : v ≠ u := by
        rintro rfl
        rw [hv] at hu
        cases hu
      have hv' : (s.pageTable.erase u).find v = none := by
        rw [SortedMap.find_erase, if_neg hne, hv]
      have hinv : s.inverseTable.find q = some u := (h.inverse u q).1 hu
      refine ⟨⟨?_, h.recent, ?_, ?_, ?_, h.next, h.lines⟩, ⟨q, ?_⟩, ?_, ?_, ?_⟩
      · intro w p
        simp only [SortedMap.find_insert hv', SortedMap.find_assign, SortedMap.find_erase, hinv,
          Option.map_some]
        by_cases hw : w = v
        · subst hw
          by_cases hp : p = q
          · simp [hp]
          · simp [hp, ← h.inverse, hv, Ne.symm hp]
        · have hvw : v ≠ w := Ne.symm hw
          by_cases hwu : w = u
          · subst hwu
            by_cases hp : p = q
            · simp [hp, hw, hvw]
            · simp [hp, hw, ← h.inverse, hu, Ne.symm hp]
          · by_cases hp : p = q
            · subst hp
              have hnot : s.pageTable.find w ≠ some p := fun hwq => hwu (h.injective hwq hu)
              simp [hw, hwu, hvw, hnot]
            · simp [hw, hwu, hp, h.inverse]
      · dsimp only
        rw [SortedMap.size_insert hv', SortedMap.size_erase hu, h.allocated]
      · dsimp only
        rw [SortedMap.size_insert hv', SortedMap.size_erase hu]
        exact h.fits
      · intro w p
        simp only [SortedMap.find_insert hv', SortedMap.find_erase]
        split_ifs
        · intro hp
          obtain rfl := Option.some.inj hp
          exact h.bound u q hu
        · intro hp
          cases hp
        · exact h.bound w p
      · simp [SortedMap.find_insert hv']
      · intro p hp
        rw [hv] at hp
        cases hp
      · intro w hw
        simp [SortedMap.find_insert hv', SortedMap.find_erase, hw, eq_comm]
      · rintro e he
        obtain rfl := Option.some.inj he
        exact hu

theorem Inv.translate {dropped : Option (Nat × Nat)} (h : s.Inv) (hr : r.Drawn)
    (ht : s.translate r v = some (dropped, s')) : s'.Inv ∧ Translates s s' v dropped := by
  unfold Paging.translate at ht
  split at ht
  · next q hq =>
    rw [Option.some.injEq, Prod.mk.injEq] at ht
    obtain ⟨rfl, rfl⟩ := ht
    refine ⟨h, ⟨q, hq⟩, fun p hp => ⟨hp, rfl⟩, ?_, ?_⟩
    · intro w _
      simp
    · intro e he
      cases he
  · next hv =>
    split at ht
    · obtain ⟨⟨e, s₁⟩, hre, heq⟩ := Option.map_eq_some_iff.1 ht
      rw [Prod.mk.injEq] at heq
      obtain ⟨rfl, rfl⟩ := heq
      exact h.replace hv hre
    · next hroom =>
      obtain ⟨s₁, ha, heq⟩ := Option.map_eq_some_iff.1 ht
      rw [Prod.mk.injEq] at heq
      obtain ⟨rfl, rfl⟩ := heq
      exact h.allocate hr hv hroom ha

@[simp] theorem countLine_pageTable (cpu line : Nat) (s : Paging) :
    (s.countLine cpu line).pageTable = s.pageTable := by
  unfold countLine
  split
  · rfl
  · rfl

@[simp] theorem countLine_inverseTable (cpu line : Nat) (s : Paging) :
    (s.countLine cpu line).inverseTable = s.inverseTable := by
  unfold countLine
  split
  · rfl
  · rfl

@[simp] theorem stall_pageTable (r : PageRequest) (swap : Bool) (s : Paging) :
    (s.stall cfg r swap).pageTable = s.pageTable := by
  unfold stall
  split
  · rfl
  · rfl

theorem Inv.stall (h : s.Inv) (r : PageRequest) (swap : Bool) : (s.stall cfg r swap).Inv := by
  unfold Paging.stall
  split
  · exact h
  · exact ⟨h.inverse, h.recent, h.allocated, h.fits, h.bound, h.next, h.lines⟩

/-- The page of the reply, and the offset in it. -/
theorem page_offset {p x : Nat} (hp : p < 2 ^ 36 + 512) :
    let pa := (p <<< LOG2_PAGE_SIZE) % 2 ^ 64 ||| (x &&& (2 ^ LOG2_PAGE_SIZE - 1))
    pa >>> LOG2_PAGE_SIZE = p ∧ pa % 2 ^ LOG2_PAGE_SIZE = x % 2 ^ LOG2_PAGE_SIZE := by
  intro pa
  have hlt : x % 2 ^ LOG2_PAGE_SIZE < 2 ^ LOG2_PAGE_SIZE := Nat.mod_lt _ (by decide)
  have hshift : p <<< LOG2_PAGE_SIZE < 2 ^ 64 := by
    rw [Nat.shiftLeft_eq, LOG2_PAGE_SIZE]
    omega
  have hpa : pa = p * 2 ^ LOG2_PAGE_SIZE + x % 2 ^ LOG2_PAGE_SIZE :=
    calc pa = p <<< LOG2_PAGE_SIZE ||| x % 2 ^ LOG2_PAGE_SIZE := by
          rw [← Nat.and_two_pow_sub_one_eq_mod, ← Nat.mod_eq_of_lt hshift]
      _ = p <<< LOG2_PAGE_SIZE + x % 2 ^ LOG2_PAGE_SIZE :=
          (Nat.shiftLeft_add_eq_or_of_lt hlt p).symm
      _ = p * 2 ^ LOG2_PAGE_SIZE + x % 2 ^ LOG2_PAGE_SIZE := by rw [Nat.shiftLeft_eq]
  rw [hpa, Nat.shiftRight_eq_div_pow]
  simp only [LOG2_PAGE_SIZE] at hlt ⊢
  omega

/-- What a call answers. -/
structure Answers (cfg : PagingConfig) (s' : Paging) (r : PageRequest) (reply : PageReply) :
    Prop where
  page : s'.pageTable.find (vpage cfg r) = some (reply.pa >>> LOG2_PAGE_SIZE)
  offset : reply.pa % 2 ^ LOG2_PAGE_SIZE = uniqueVa cfg r % 2 ^ LOG2_PAGE_SIZE

theorem Inv.vaToPa {reply : PageReply} (h : s.Inv) (hr : r.Drawn)
    (hdo : s.vaToPa cfg r = some (reply, s')) :
    s'.Inv ∧ Translates s s' (vpage cfg r) reply.invalidated ∧ Answers cfg s' r reply := by
  unfold Paging.vaToPa at hdo
  split at hdo
  · cases hdo
  · extract_lets s₁ at hdo
    obtain ⟨⟨dropped, s₂⟩, ht, hrest⟩ := Option.bind_eq_some_iff.1 hdo
    obtain ⟨p, hp, heq⟩ := Option.map_eq_some_iff.1 hrest
    rw [Prod.mk.injEq] at heq
    obtain ⟨rfl, rfl⟩ := heq
    obtain ⟨hinv, htrans⟩ := (h.countLine r.cpu _).translate hr ht
    have hoff := page_offset (x := uniqueVa cfg r) (hinv.bound _ _ hp)
    refine ⟨hinv.stall r _, ⟨?_, ?_, ?_, ?_⟩, ?_, hoff.2⟩
    · simpa using htrans.found
    · simpa using htrans.kept
    · simpa using htrans.others
    · simpa using htrans.dropped
    · rw [stall_pageTable, hp, hoff.1]

theorem Inv.exists_translate (h : s.Inv) (hd : ∃ d ∈ r.draws, s.inverseTable.find d = none) :
    ∃ res, s.translate r v = some res := by
  unfold Paging.translate
  split
  · exact ⟨_, rfl⟩
  · split
    · next hfull =>
      have hpos : 0 < s.pageTable.size := by
        rw [← h.allocated]
        exact (by decide : 0 < DRAM_PAGES).trans_le hfull
      have hrecent : ∀ u, decide (s.recentPage.find u = none) = true := by
        intro u
        rw [h.recent]
        rfl
      obtain ⟨⟨u, q⟩, hfirst⟩ := SortedMap.exists_first hrecent hpos
      obtain ⟨hu, -⟩ := SortedMap.find_of_first hfirst
      have hused : s.inverseTable.find q ≠ none := by
        rw [(h.inverse u q).1 hu]
        exact Option.some_ne_none u
      unfold Paging.replace
      rw [hfirst]
      dsimp only
      rw [if_neg hused]
      exact ⟨_, rfl⟩
    · obtain ⟨d, hmem, hfree⟩ := hd
      cases htry : s.tryPages r.draws with
      | some res =>
        unfold Paging.allocate
        rw [htry]
        exact ⟨_, rfl⟩
      | none =>
        unfold Paging.tryPages at htry
        split at htry
        · exact absurd hfree ((findEmpty_eq_none htry).2 d hmem)
        · split at htry
          · next hnil =>
            rw [hnil] at hmem
            cases hmem
          · next d' ds hdraws =>
            rw [hdraws] at hmem
            obtain ⟨hd', hds⟩ := findEmpty_eq_none htry
            have hall : ∀ x ∈ d' :: ds, s.inverseTable.find x ≠ none :=
              List.forall_mem_cons.2 ⟨hd', hds⟩
            exact absurd hfree (hall d hmem)

/-- A call ends when it draws an empty page, and no assertion fails. -/
theorem Inv.exists_reply (h : s.Inv) (hr : r.Drawn) (hva : r.va ≠ 0)
    (hd : ∃ d ∈ r.draws, s.inverseTable.find d = none) :
    ∃ reply, (s.step cfg r).1 = some reply := by
  have h₁ := h.countLine r.cpu (lineOf cfg r)
  obtain ⟨⟨dropped, s₂⟩, ht⟩ := h₁.exists_translate (v := vpage cfg r) (by simpa using hd)
  obtain ⟨p, hp⟩ := (h₁.translate hr ht).2.found
  unfold Paging.step Paging.vaToPa
  rw [if_neg hva]
  dsimp only
  rw [ht, Option.bind_some]
  dsimp only
  rw [hp, Option.map_some]
  exact ⟨_, rfl⟩

/-! ## Every run -/

theorem Inv.step (h : s.Inv) (hr : r.Drawn) : (s.step cfg r).2.Inv := by
  unfold Paging.step
  split
  · exact h
  · next hdo => exact (h.vaToPa hr hdo).1

theorem Inv.run {rs : List PageRequest} (h : s.Inv) (hrs : ∀ r ∈ rs, r.Drawn) :
    (Mealy.run (Paging.step cfg) s rs).Inv := by
  induction rs generalizing s with
  | nil => exact h
  | cons r rs ih =>
    exact ih (h.step (hrs r List.mem_cons_self)) fun r' hr' => hrs r' (List.mem_cons_of_mem r hr')

/-- The reply of a call drops the translation of the page. -/
def Drops (w : Nat) (reply : Option PageReply) : Prop :=
  (reply.bind (·.invalidated)).map (·.1) = some w

instance (w : Nat) (reply : Option PageReply) : Decidable (Drops w reply) :=
  inferInstanceAs (Decidable (_ = _))

theorem Inv.step_kept (h : s.Inv) (hr : r.Drawn) (hw : s.pageTable.find w = some p)
    (hkeep : ¬ Drops w (s.step cfg r).1) : (s.step cfg r).2.pageTable.find w = some p := by
  unfold Paging.step at hkeep ⊢
  split at hkeep
  · exact hw
  · next reply s' hdo =>
    obtain ⟨-, htrans, -⟩ := h.vaToPa hr hdo
    by_cases hwv : w = vpage cfg r
    · subst hwv
      exact (htrans.kept p hw).1
    · have hnot : reply.invalidated.map (·.1) ≠ some w := hkeep
      rw [htrans.others w hwv, if_neg hnot]
      exact hw

theorem Inv.run_kept {rs : List PageRequest} (h : s.Inv) (hrs : ∀ r ∈ rs, r.Drawn)
    (hw : s.pageTable.find w = some p)
    (hkeep : ∀ o ∈ Mealy.outputs (Paging.step cfg) s rs, ¬ Drops w o) :
    (Mealy.run (Paging.step cfg) s rs).pageTable.find w = some p := by
  induction rs generalizing s with
  | nil => exact hw
  | cons r rs ih =>
    have hr := hrs r List.mem_cons_self
    have hone := h.step_kept hr hw (hkeep _ List.mem_cons_self)
    apply ih (h.step hr) (fun r' hr' => hrs r' (List.mem_cons_of_mem r hr')) hone
    intro o ho
    exact hkeep o (List.mem_cons_of_mem _ ho)

theorem Inv.step_answers {reply : PageReply} (h : s.Inv) (hr : r.Drawn)
    (hdo : (s.step cfg r).1 = some reply) : Answers cfg (s.step cfg r).2 r reply := by
  unfold Paging.step at hdo ⊢
  split at hdo
  · cases hdo
  · next hva =>
    obtain rfl := Option.some.inj hdo
    exact (h.vaToPa hr hva).2.2

/-- The state after a run. -/
abbrev after (cfg : PagingConfig) (rs : List PageRequest) : Paging :=
  Mealy.run (Paging.step cfg) {} rs

/-! ## The footprint -/

/-- The lines of the calls of a core that have returned, oldest first. -/
def linesOf (cfg : PagingConfig) (cpu : Nat) (rs : List PageRequest) : List Nat :=
  Mealy.collect (step cfg)
    (fun s r => if r.cpu = cpu ∧ (s.step cfg r).1.isSome = true then some (lineOf cfg r) else none)
    {} rs

/-- The lines `L` of each core have been counted: how often each but for the first time, and
how many there are. -/
structure Footprint (s : Paging) (L : Nat → List Nat) : Prop where
  found : ∀ cpu l n, (s.uniqueCl cpu).find l = some n ↔ (L cpu).count l = n + 1
  counted : ∀ cpu, s.numCl cpu = (L cpu).toFinset.card

theorem Footprint.init : ({} : Paging).Footprint fun _ => [] :=
  ⟨by simp, fun _ => rfl⟩

theorem Footprint.congr {L : Nat → List Nat} (h : s.Footprint L) (hcl : s'.uniqueCl = s.uniqueCl)
    (hnum : s'.numCl = s.numCl) : s'.Footprint L := by
  refine ⟨?_, ?_⟩
  · rw [hcl]
    exact h.found
  · rw [hnum]
    exact h.counted

/-- A change of the footprint of one core. -/
theorem Footprint.update {L : Nat → List Nat} (h : s.Footprint L) {cpu : Nat} {lines : List Nat}
    (hfound : ∀ l n, (s'.uniqueCl cpu).find l = some n ↔ lines.count l = n + 1)
    (hcounted : s'.numCl cpu = lines.toFinset.card)
    (hother : ∀ c, c ≠ cpu → s'.uniqueCl c = s.uniqueCl c ∧ s'.numCl c = s.numCl c) :
    s'.Footprint (Function.update L cpu lines) := by
  refine ⟨?_, ?_⟩
  · intro c l n
    by_cases hc : c = cpu
    · subst hc
      rw [Function.update_self]
      exact hfound l n
    · rw [Function.update_of_ne hc, (hother c hc).1]
      exact h.found c l n
  · intro c
    by_cases hc : c = cpu
    · subst hc
      rw [Function.update_self]
      exact hcounted
    · rw [Function.update_of_ne hc, (hother c hc).2]
      exact h.counted c

/-- One more line is counted. -/
theorem Footprint.countLine {L : Nat → List Nat} (h : s.Footprint L) (cpu line : Nat) :
    (s.countLine cpu line).Footprint (Function.update L cpu (L cpu ++ [line])) := by
  have hset : (L cpu ++ [line]).toFinset = insert line (L cpu).toFinset := by
    ext l
    simp
  unfold Paging.countLine
  split
  · next hnew =>
    have hzero : (L cpu).count line = 0 := by
      by_contra hpos
      obtain ⟨n, hn⟩ := Nat.exists_eq_succ_of_ne_zero hpos
      rw [(h.found cpu line n).2 hn] at hnew
      cases hnew
    have hnot : line ∉ (L cpu).toFinset := by
      rw [List.mem_toFinset]
      exact List.count_eq_zero.1 hzero
    refine h.update ?_ ?_ fun c hc => ⟨Function.update_of_ne hc _ _, Function.update_of_ne hc _ _⟩
    · intro l n
      simp only [Function.update_self, SortedMap.find_insert hnew, List.count_append,
        List.count_singleton]
      by_cases hl : l = line
      · simp [hl, hzero, eq_comm]
      · simp [hl, Ne.symm hl, h.found]
    · simp only [Function.update_self]
      rw [hset, Finset.card_insert_of_notMem hnot, h.counted]
  · next m hm =>
    have hcount : (L cpu).count line = m + 1 := (h.found cpu line m).1 hm
    have hmem : line ∈ (L cpu).toFinset := by
      rw [List.mem_toFinset, ← List.count_pos_iff]
      omega
    refine h.update ?_ ?_ fun c hc => ⟨Function.update_of_ne hc _ _, rfl⟩
    · intro l n
      simp only [Function.update_self, SortedMap.find_assign, List.count_append,
        List.count_singleton]
      by_cases hl : l = line
      · simp [hl, hm, hcount]
      · simp [hl, Ne.symm hl, h.found]
    · rw [hset, Finset.insert_eq_of_mem hmem]
      exact h.counted cpu

/-- A translation counts no line. -/
theorem translate_footprint {dropped : Option (Nat × Nat)}
    (ht : s.translate r v = some (dropped, s')) :
    s'.uniqueCl = s.uniqueCl ∧ s'.numCl = s.numCl := by
  unfold Paging.translate at ht
  split at ht
  · rw [Option.some.injEq, Prod.mk.injEq] at ht
    obtain ⟨-, rfl⟩ := ht
    exact ⟨rfl, rfl⟩
  · split at ht
    · obtain ⟨⟨e, s₁⟩, hre, heq⟩ := Option.map_eq_some_iff.1 ht
      rw [Prod.mk.injEq] at heq
      obtain ⟨-, rfl⟩ := heq
      unfold Paging.replace at hre
      split at hre
      · cases hre
      · split at hre
        · cases hre
        · rw [Option.some.injEq, Prod.mk.injEq] at hre
          obtain ⟨-, rfl⟩ := hre
          exact ⟨rfl, rfl⟩
    · obtain ⟨s₁, ha, heq⟩ := Option.map_eq_some_iff.1 ht
      rw [Prod.mk.injEq] at heq
      obtain ⟨-, rfl⟩ := heq
      obtain ⟨-, -, rfl⟩ := Option.map_eq_some_iff.1 ha
      exact ⟨rfl, rfl⟩

/-- A call that returns counts its line. -/
theorem Footprint.vaToPa {L : Nat → List Nat} {reply : PageReply} (h : s.Footprint L)
    (hdo : s.vaToPa cfg r = some (reply, s')) :
    s'.Footprint (Function.update L r.cpu (L r.cpu ++ [lineOf cfg r])) := by
  unfold Paging.vaToPa at hdo
  split at hdo
  · cases hdo
  · extract_lets s₁ at hdo
    obtain ⟨⟨dropped, s₂⟩, ht, hrest⟩ := Option.bind_eq_some_iff.1 hdo
    obtain ⟨p, hp, heq⟩ := Option.map_eq_some_iff.1 hrest
    rw [Prod.mk.injEq] at heq
    obtain ⟨-, rfl⟩ := heq
    obtain ⟨hcl, hnum⟩ := translate_footprint ht
    have h₂ := (h.countLine r.cpu (lineOf cfg r)).congr hcl hnum
    unfold Paging.stall
    split
    · exact h₂
    · exact h₂.congr rfl rfl

/-- After a run the lines of its calls have been counted. -/
theorem footprint_after (cfg : PagingConfig) (rs : List PageRequest) :
    (after cfg rs).Footprint fun cpu => linesOf cfg cpu rs := by
  induction rs using List.reverseRecOn with
  | nil => exact Footprint.init
  | append_singleton rs r ih =>
    have hafter : after cfg (rs ++ [r]) = ((after cfg rs).step cfg r).2 := Mealy.run_snoc rs r
    rw [hafter]
    have hlines : ∀ cpu, linesOf cfg cpu (rs ++ [r]) = linesOf cfg cpu rs
        ++ (if r.cpu = cpu ∧ ((after cfg rs).step cfg r).1.isSome = true
            then some (lineOf cfg r) else none).toList := fun cpu => Mealy.collect_snoc _ rs r
    generalize after cfg rs = s at ih hlines
    cases hdo : s.vaToPa cfg r with
    | none =>
      have hstep : s.step cfg r = (none, s) := by rw [step, hdo]
      rw [hstep] at hlines ⊢
      simp only [hlines, Option.isSome_none, Bool.false_eq_true, and_false, if_false,
        Option.toList_none, List.append_nil]
      exact ih
    | some res =>
      have hstep : s.step cfg r = (some res.1, res.2) := by rw [step, hdo]
      rw [hstep] at hlines ⊢
      have hupdate : (fun cpu => linesOf cfg cpu (rs ++ [r]))
          = Function.update (fun cpu => linesOf cfg cpu rs) r.cpu
              (linesOf cfg r.cpu rs ++ [lineOf cfg r]) := by
        funext cpu
        rw [hlines]
        by_cases hc : cpu = r.cpu
        · subst hc
          simp
        · simp [hc, Ne.symm hc]
      rw [hupdate]
      exact ih.vaToPa hdo

/-! ## The tables after a run -/

/-- **The page table is a bijection** between the pages in use and their physical pages after
every run, with as many pages as have been counted and no more than the memory has. The
footprint of a core holds the lines of its calls and `num_cl` is how many different ones
there are. No assertion fails, and a call ends as soon as it draws a page that is not in
use. -/
theorem translations_inverse (cfg : PagingConfig) (rs : List PageRequest)
    (hrs : ∀ r ∈ rs, r.Drawn) :
    let s := after cfg rs
    (∀ v p, s.pageTable.find v = some p ↔ s.inverseTable.find p = some v)
      ∧ s.allocatedPages = s.pageTable.size ∧ s.pageTable.size ≤ DRAM_PAGES
      ∧ (∀ cpu, s.numCl cpu = (s.uniqueCl cpu).size)
      ∧ (∀ cpu l n, (s.uniqueCl cpu).find l = some n ↔ (linesOf cfg cpu rs).count l = n + 1)
      ∧ (∀ cpu, s.numCl cpu = (linesOf cfg cpu rs).toFinset.card)
      ∧ ∀ r : PageRequest, r.Drawn → r.va ≠ 0 →
        (∃ d ∈ r.draws, s.inverseTable.find d = none) → ∃ reply, (s.step cfg r).1 = some reply := by
  intro s
  have h : s.Inv := inv_init.run hrs
  have hfoot := footprint_after cfg rs
  exact ⟨h.inverse, h.allocated, h.fits, h.lines, hfoot.found, hfoot.counted,
    fun r hr hva hd => h.exists_reply hr hva hd⟩

/-- A page is read, then the next one, then the first again at another offset. -/
def readPage : PageRequest := ⟨0, 4104, 1, false, 10, [77], 0⟩

def readNext : PageRequest := ⟨0, 8192, 2, false, 20, [], 3⟩

def readAgain : PageRequest := ⟨0, 4196, 1, true, 30, [], 0⟩

/-- Four reads of three lines. -/
theorem translations_inverse_reads :
    let rs := [readPage, readNext, readAgain, readPage]
    let s := after {} rs
    (∀ v p, s.pageTable.find v = some p ↔ s.inverseTable.find p = some v)
      ∧ (∀ cpu l n, (s.uniqueCl cpu).find l = some n ↔ (linesOf {} cpu rs).count l = n + 1)
      ∧ linesOf {} 0 rs = [64, 128, 65, 64] ∧ s.numCl 0 = 3
      ∧ s.pageTable.find 1 = some 77 ∧ s.pageTable.find 2 = some 78 := by
  have h := translations_inverse {} [readPage, readNext, readAgain, readPage] (by decide)
  exact ⟨h.1, h.2.2.2.2.1, by decide +kernel, by decide +kernel, by decide +kernel,
    by decide +kernel⟩

section cores

variable {k : Nat}

/-- The number of a core, in the bits above the page numbers. -/
theorem highBitMask_eq (hcpus : cfg.NUM_CPUS = 2 ^ k) (hk : k ≤ 12) {cpu : Nat}
    (hcpu : cpu < cfg.NUM_CPUS) : highBitMask cfg cpu = cpu <<< (64 - k) := by
  rw [hcpus] at hcpu
  have hzero : cpu >>> k = 0 := by
    rw [Nat.shiftRight_eq_div_pow, Nat.div_eq_of_lt hcpu]
  have hlt : cpu <<< (64 - k) < 2 ^ 64 := by
    rw [Nat.shiftLeft_eq]
    calc cpu * 2 ^ (64 - k) < 2 ^ k * 2 ^ (64 - k) :=
          Nat.mul_lt_mul_of_pos_right hcpu (Nat.two_pow_pos _)
      _ = 2 ^ 64 := by rw [← Nat.pow_add, Nat.add_sub_cancel' (by omega)]
  rw [highBitMask, lg2, hcpus, Nat.log2_two_pow, rotr64, hzero, Nat.zero_or]
  rcases Nat.eq_zero_or_pos k with rfl | hpos
  · obtain rfl : cpu = 0 := by omega
    rfl
  · rw [Nat.mod_eq_of_lt (by omega : 64 - k < 64), Nat.mod_eq_of_lt hlt]

/-- With a power of two of cores, pages of different cores or numbers stay different. -/
theorem vpage_inj {r₁ r₂ : PageRequest} (hcpus : cfg.NUM_CPUS = 2 ^ k) (hk : k ≤ 12)
    (h₁ : r₁.Valid cfg) (h₂ : r₂.Valid cfg) :
    vpage cfg r₁ = vpage cfg r₂ ↔ r₁.cpu = r₂.cpu ∧ r₁.uniqueVpage = r₂.uniqueVpage := by
  have hpow : 2 ^ 52 ≤ 2 ^ (64 - k) := Nat.pow_le_pow_right (by decide) (by omega)
  have hvpage : ∀ r : PageRequest, r.Valid cfg →
      vpage cfg r = r.cpu * 2 ^ (64 - k) + r.uniqueVpage := by
    intro r hr
    have hlt : r.uniqueVpage < 2 ^ (64 - k) := hr.page.trans_le hpow
    calc vpage cfg r = r.cpu <<< (64 - k) ||| r.uniqueVpage := by
          rw [vpage, highBitMask_eq hcpus hk hr.cpu, Nat.or_comm]
      _ = r.cpu <<< (64 - k) + r.uniqueVpage := (Nat.shiftLeft_add_eq_or_of_lt hlt _).symm
      _ = r.cpu * 2 ^ (64 - k) + r.uniqueVpage := by rw [Nat.shiftLeft_eq]
  rw [hvpage r₁ h₁, hvpage r₂ h₂]
  constructor
  · intro heq
    have hlt₁ : r₁.uniqueVpage < 2 ^ (64 - k) := h₁.page.trans_le hpow
    have hlt₂ : r₂.uniqueVpage < 2 ^ (64 - k) := h₂.page.trans_le hpow
    have hmod := congrArg (· % 2 ^ (64 - k)) heq
    simp only [Nat.mul_add_mod_of_lt hlt₁, Nat.mul_add_mod_of_lt hlt₂] at hmod
    rw [hmod] at heq
    exact ⟨Nat.eq_of_mul_eq_mul_right (Nat.two_pow_pos _) (Nat.add_right_cancel heq), hmod⟩
  · rintro ⟨hcpu, hpage⟩
    rw [hcpu, hpage]

/-- From a call on, while its page is not dropped. -/
theorem Inv.same_page {mid : List PageRequest} {r₁ r₂ : PageRequest} {o₁ o₂ : PageReply}
    (h : s.Inv) (hr₁ : r₁.Drawn) (hmid : ∀ r ∈ mid, r.Drawn) (hr₂ : r₂.Drawn)
    (h₁ : (s.step cfg r₁).1 = some o₁)
    (h₂ : ((Mealy.run (Paging.step cfg) (s.step cfg r₁).2 mid).step cfg r₂).1 = some o₂)
    (hkeep : ∀ o ∈ Mealy.outputs (Paging.step cfg) (s.step cfg r₁).2 (mid ++ [r₂]),
      ¬ Drops (vpage cfg r₁) o) :
    o₁.pa >>> LOG2_PAGE_SIZE = o₂.pa >>> LOG2_PAGE_SIZE ↔ vpage cfg r₁ = vpage cfg r₂ := by
  rw [Mealy.outputs_append] at hkeep
  have hs₁ : (s.step cfg r₁).2.Inv := h.step hr₁
  have hfirst := (h.step_answers hr₁ h₁).page
  have hkept := hs₁.run_kept hmid hfirst fun o ho => hkeep o (List.mem_append_left _ ho)
  have hs₂ : (Mealy.run (Paging.step cfg) (s.step cfg r₁).2 mid).Inv := hs₁.run hmid
  have hlast := (hs₂.step_answers hr₂ h₂).page
  have hstay := hs₂.step_kept hr₂ hkept
    (hkeep _ (List.mem_append_right _ List.mem_cons_self))
  constructor
  · intro heq
    rw [heq] at hstay
    exact (hs₂.step hr₂).injective hstay hlast
  · intro heq
    rw [heq] at hstay
    exact Option.some.inj (hstay.symm.trans hlast)

/-- **Translations are stable and do not alias.** As long as the page of a call is not
dropped, another call of the run gets the same physical page exactly when it is for the same
core and page. -/
theorem same_page_iff (hcpus : cfg.NUM_CPUS = 2 ^ k) (hk : k ≤ 12) {pre mid : List PageRequest}
    {r₁ r₂ : PageRequest} (hvalid : ∀ r ∈ pre ++ r₁ :: (mid ++ [r₂]), r.Valid cfg)
    {o₁ o₂ : PageReply} (h₁ : ((after cfg pre).step cfg r₁).1 = some o₁)
    (h₂ : ((after cfg (pre ++ r₁ :: mid)).step cfg r₂).1 = some o₂)
    (hkeep : ∀ o ∈ Mealy.outputs (Paging.step cfg) (after cfg (pre ++ [r₁])) (mid ++ [r₂]),
      ¬ Drops (vpage cfg r₁) o) :
    o₁.pa >>> LOG2_PAGE_SIZE = o₂.pa >>> LOG2_PAGE_SIZE
      ↔ r₁.cpu = r₂.cpu ∧ r₁.uniqueVpage = r₂.uniqueVpage := by
  have hv₁ := hvalid r₁ (by simp)
  have hv₂ := hvalid r₂ (by simp)
  have hpre : ∀ r ∈ pre, r.Drawn := fun r hr => (hvalid r (by simp [hr])).drawn
  have hmid : ∀ r ∈ mid, r.Drawn := fun r hr => (hvalid r (by simp [hr])).drawn
  rw [after, Mealy.run_append, Mealy.run_cons] at h₂
  rw [after, Mealy.run_snoc] at hkeep
  calc o₁.pa >>> LOG2_PAGE_SIZE = o₂.pa >>> LOG2_PAGE_SIZE
      ↔ vpage cfg r₁ = vpage cfg r₂ :=
        (inv_init.run hpre).same_page hv₁.drawn hmid hv₂.drawn h₁ h₂ hkeep
    _ ↔ r₁.cpu = r₂.cpu ∧ r₁.uniqueVpage = r₂.uniqueVpage := vpage_inj hcpus hk hv₁ hv₂

theorem same_page_iff_reads : 315400 >>> LOG2_PAGE_SIZE = 315492 >>> LOG2_PAGE_SIZE
    ↔ readPage.cpu = readAgain.cpu ∧ readPage.uniqueVpage = readAgain.uniqueVpage := by
  have hvalid : ∀ r ∈ [] ++ readPage :: ([readNext] ++ [readAgain]), r.Valid {} := by
    intro r hr
    simp only [List.nil_append, List.cons_append, List.mem_cons, List.not_mem_nil,
      or_false] at hr
    rcases hr with rfl | rfl | rfl
    · exact ⟨by decide, by decide, by decide⟩
    · exact ⟨by decide, by decide, by decide⟩
    · exact ⟨by decide, by decide, by decide⟩
  exact @same_page_iff {} 0 rfl (by decide) [] [readNext] readPage readAgain hvalid
    ⟨315400, none⟩ ⟨315492, none⟩ rfl rfl (by decide)

end cores

end Paging

end SandboxPredictor
