import SandboxPredictor.ChampSim.CacheQueues
import SandboxPredictor.ChampSim.PageTable
import SandboxPredictor.Lib.KeyTable
import SandboxPredictor.Lib.Mealy
import SandboxPredictor.Lib.Recency

/- The stride prefetcher of the L2 cache, `prefetcher/ip_stride.l2c_pref`: for each of the
   last instructions a tracker with the line it accessed last and the stride to it.

   In every run there is a tracker to replace, and a prefetch is only issued when the last
   accesses of its instruction have gone on by one stride; it goes on with that stride and
   stays within the page (`prefetches_progression`). -/
namespace SandboxPredictor

def PREFETCH_DEGREE : Nat := 3

/-- `IP_TRACKER`. The stride is an `int64_t`. -/
structure IpTracker where
  ip : Word := 0#64
  lastClAddr : Word := 0#64
  lastStride : Word := 0#64
  lru : Nat

/-- `n + 1` trackers. -/
structure IpStride (n : Nat) where
  trackers : Fin (n + 1) → IpTracker

/-- What `l2c_prefetcher_operate` is told of an access, with the occupancy and the size of the
`MSHR` it looks at. -/
structure StrideAccess where
  addr : Word
  ip : Word
  occupancy : Nat
  size : Nat

/-- A call of `prefetch_line`. -/
structure PrefetchCall where
  pfAddr : Word
  fillLevel : Int

namespace StrideAccess

variable (a : StrideAccess)

/-- The line of the access. -/
def clAddr : Word := a.addr >>> LOG2_BLOCK_SIZE

/-- The line that lies `i + 1` strides ahead. -/
def pfAddress (stride : Word) (i : Nat) : Word :=
  (a.clAddr + stride * BitVec.ofNat 64 (i + 1)) <<< LOG2_BLOCK_SIZE

/-- The prefetches for a stride, up to the first that leaves the page. -/
def prefetches (stride : Word) : List PrefetchCall :=
  (((List.range PREFETCH_DEGREE).map (a.pfAddress stride)).takeWhile fun pf : Word =>
      pf >>> LOG2_PAGE_SIZE = a.addr >>> LOG2_PAGE_SIZE).map fun pf =>
    ⟨pf, if a.occupancy < a.size / 2 then FILL_L2 else FILL_LLC⟩

end StrideAccess

/-- The difference of two lines, computed from unsigned values. -/
def lineStride (clAddr lastClAddr : Word) : Word :=
  if lastClAddr < clAddr then clAddr - lastClAddr else -(lastClAddr - clAddr)

namespace IpStride

variable {n : Nat}

def new (n : Nat) : IpStride n := ⟨fun i => { lru := i.val }⟩

/-- A tracker written anew, and younger than all others. -/
def promote (r : IpStride n) (i : Fin (n + 1)) (e : IpTracker) : IpStride n where
  trackers := fun j =>
    if j = i then { e with lru := 0 }
    else if (r.trackers j).lru < (r.trackers i).lru then
      { r.trackers j with lru := (r.trackers j).lru + 1 }
    else r.trackers j

/-- `l2c_prefetcher_operate`; no answer is an index past the trackers. -/
def operate (r : IpStride n) (a : StrideAccess) : Option (List PrefetchCall) × IpStride n :=
  match KeyTable.find IpTracker.ip r.trackers a.ip with
  | none =>
    match KeyTable.find IpTracker.lru r.trackers n with
    | none => (none, r)
    | some i =>
      (some [], r.promote i
        { r.trackers i with ip := a.ip, lastClAddr := a.clAddr, lastStride := 0#64 })
  | some i =>
    let stride := lineStride a.clAddr (r.trackers i).lastClAddr
    -- the same line twice in a row is no access of its own
    if stride = 0#64 then (some [], r)
    else
      (some (if stride = (r.trackers i).lastStride then a.prefetches stride else []),
        r.promote i { r.trackers i with lastClAddr := a.clAddr, lastStride := stride })

theorem lineStride_eq (x y : Word) : lineStride x y = x - y := by
  unfold lineStride
  split
  · rfl
  · bv_omega

/-! ## The trackers -/

/-- The ages of the trackers number them. -/
def Ordered (r : IpStride n) : Prop :=
  ∃ L, Recency.Ranked (fun _ => True) id (fun i => (r.trackers i).lru) L

/-- No instruction has two trackers. -/
def Apart (r : IpStride n) : Prop :=
  ∀ i j, (r.trackers i).ip ≠ 0#64 → (r.trackers i).ip = (r.trackers j).ip → i = j

variable {r : IpStride n} {a : StrideAccess} {i j : Fin (n + 1)} {e : IpTracker}

@[simp] theorem promote_self : (r.promote i e).trackers i = { e with lru := 0 } := by
  simp [promote]

theorem promote_of_ne (h : j ≠ i) :
    (r.promote i e).trackers j
      = { r.trackers j with
          lru := if (r.trackers j).lru < (r.trackers i).lru then (r.trackers j).lru + 1
            else (r.trackers j).lru } := by
  simp only [promote, if_neg h]
  split
  · rfl
  · rfl

theorem ordered_new : (new n).Ordered := ⟨_, Recency.Ranked.finRange (n + 1)⟩

theorem Ordered.promote (h : r.Ordered) (i : Fin (n + 1)) (e : IpTracker) :
    (r.promote i e).Ordered := by
  obtain ⟨L, hL⟩ := h
  have hages : Recency.Ranked (fun _ => True) id (fun j => ((r.promote i e).trackers j).lru)
      (i :: L.erase i) := by
    refine hL.bump trivial ?_ ?_
    · rw [promote_self]
    · intro j _ hj
      rw [promote_of_ne hj]
  exact ⟨_, hages⟩

/-- There is an oldest tracker. -/
theorem Ordered.oldest (h : r.Ordered) : ∃ i, KeyTable.find IpTracker.lru r.trackers n = some i := by
  obtain ⟨L, hL⟩ := h
  obtain ⟨i, hi⟩ := hL.exists_oldest (fun _ => trivial) (Fintype.card_fin (n + 1))
  exact KeyTable.find_isSome i hi

theorem Apart.promote (h : r.Apart)
    (hi : e.ip ≠ 0#64 → ∀ j, j ≠ i → (r.trackers j).ip ≠ e.ip) : (r.promote i e).Apart := by
  intro j k hj hjk
  by_cases hji : j = i
  · by_cases hki : k = i
    · rw [hji, hki]
    · rw [hji, promote_self] at hj hjk
      rw [promote_of_ne hki] at hjk
      exact absurd hjk.symm (hi hj k hki)
  · rw [promote_of_ne hji] at hj hjk
    by_cases hki : k = i
    · rw [hki, promote_self] at hjk
      exact absurd hjk (hi (fun hc => hj (hjk.trans hc)) j hji)
    · rw [promote_of_ne hki] at hjk
      exact h j k hj hjk

/-! ## The lines of an instruction -/

/-- A line after others, unless it is the last of them already. -/
def push (H : List Word) (x : Word) : List Word := if H.getLast? = some x then H else H ++ [x]

/-- The lines that an instruction accesses in the calls `tr`, without repetitions in a row. -/
def lines (ip : Word) (tr : List StrideAccess) : List Word :=
  ((tr.filter fun a => a.ip = ip).map StrideAccess.clAddr).foldl push []

theorem lines_snoc (ip : Word) (tr : List StrideAccess) (a : StrideAccess) :
    lines ip (tr ++ [a]) = if a.ip = ip then push (lines ip tr) a.clAddr else lines ip tr := by
  unfold lines
  rw [List.filter_append, List.map_append, List.foldl_append]
  by_cases hip : a.ip = ip
  · simp [hip]
  · simp [hip]

/-- A tracker knows the last line of its instruction, and the stride to it unless it is new. -/
structure Knows (e : IpTracker) (H : List Word) : Prop where
  last : H.getLast? = some e.lastClAddr
  stride : e.lastStride ≠ 0#64 →
    ∃ H' y, H = H' ++ [y, e.lastClAddr] ∧ e.lastStride = e.lastClAddr - y

/-- What the trackers know after the calls `tr`. -/
structure Tracking (r : IpStride n) (tr : List StrideAccess) : Prop where
  ordered : r.Ordered
  apart : r.Apart
  knows : ∀ i, (r.trackers i).ip ≠ 0#64 → Knows (r.trackers i) (lines (r.trackers i).ip tr)

theorem tracking_new : Tracking (new n) [] where
  ordered := ordered_new
  apart := fun _ _ h => absurd rfl h
  knows := fun _ h => absurd rfl h

variable {tr : List StrideAccess}

/-- The trackers of the other instructions know what they knew. -/
theorem Tracking.other (h : Tracking r tr) (hip : (r.trackers j).ip ≠ 0#64)
    (hne : (r.trackers j).ip ≠ a.ip) :
    Knows (r.trackers j) (lines (r.trackers j).ip (tr ++ [a])) := by
  rw [lines_snoc, if_neg (Ne.symm hne)]
  exact h.knows j hip

/-- A tracker is written, by the access of its instruction. -/
theorem Tracking.promote (h : Tracking r tr) (hip : e.ip = a.ip)
    (hother : a.ip ≠ 0#64 → ∀ j, j ≠ i → (r.trackers j).ip ≠ a.ip)
    (hknows : a.ip ≠ 0#64 → Knows e (push (lines a.ip tr) a.clAddr)) :
    Tracking (r.promote i e) (tr ++ [a]) where
  ordered := h.ordered.promote i e
  apart := h.apart.promote (by rw [hip]; exact hother)
  knows := by
    intro j hj
    by_cases hji : j = i
    · rw [hji, promote_self] at hj ⊢
      have hzero : a.ip ≠ 0#64 := hip ▸ hj
      dsimp only
      rw [lines_snoc, if_pos hip.symm, hip]
      obtain ⟨hlast, hstride⟩ := hknows hzero
      exact ⟨hlast, hstride⟩
    · rw [promote_of_ne hji] at hj ⊢
      have hne : (r.trackers j).ip ≠ a.ip := fun hc => hother (fun h0 => hj (hc.trans h0)) j hji hc
      obtain ⟨hlast, hstride⟩ := h.other hj hne
      exact ⟨hlast, hstride⟩

/-- Another line follows the last one. -/
theorem Knows.push {H : List Word} (h : Knows e H) {x : Word} (hx : x ≠ e.lastClAddr) :
    ∃ H', IpStride.push H x = H' ++ [e.lastClAddr, x] := by
  have hne : ¬ H.getLast? = some x := by
    rw [h.last]
    intro hc
    exact hx (Option.some.inj hc).symm
  obtain ⟨H', rfl⟩ := List.getLast?_eq_some_iff.1 h.last
  refine ⟨H', ?_⟩
  rw [IpStride.push, if_neg hne, List.append_assoc]
  rfl

theorem push_getLast (H : List Word) (x : Word) : (push H x).getLast? = some x := by
  unfold push
  split
  · next hlast => exact hlast
  · simp

/-- **One access.** -/
theorem Tracking.operate (h : Tracking r tr) (a : StrideAccess) :
    (r.operate a).1 ≠ none ∧ Tracking (r.operate a).2 (tr ++ [a]) := by
  unfold IpStride.operate
  cases hfind : KeyTable.find IpTracker.ip r.trackers a.ip with
  | none =>
    have hnew : ∀ j, (r.trackers j).ip ≠ a.ip := KeyTable.find_eq_none.1 hfind
    obtain ⟨i, hi⟩ := h.ordered.oldest
    dsimp only
    rw [hi]
    refine ⟨Option.some_ne_none _, h.promote rfl (fun _ j _ => hnew j) ?_⟩
    intro _
    exact ⟨push_getLast _ _, fun hc => absurd rfl hc⟩
  | some i =>
    have hip : (r.trackers i).ip = a.ip := KeyTable.key_of_find hfind
    dsimp only
    rw [lineStride_eq]
    split
    · next hzero =>
      -- the line of the last access, which the history does not repeat
      have hsame : a.clAddr = (r.trackers i).lastClAddr := by bv_omega
      refine ⟨Option.some_ne_none _, h.ordered, h.apart, ?_⟩
      intro j hj
      by_cases hja : (r.trackers j).ip = a.ip
      · have hji : j = i := h.apart j i hj (hja.trans hip.symm)
        subst hji
        have hknows := h.knows j hj
        rw [lines_snoc, if_pos hja.symm, push, if_pos (hsame ▸ hknows.last)]
        exact hknows
      · exact h.other hj hja
    · next hne =>
      have hline : a.clAddr ≠ (r.trackers i).lastClAddr := by
        intro hc
        apply hne
        rw [hc, BitVec.sub_self]
      -- trackers that were never used share the ip 0, so an ip of 0 promises nothing
      refine ⟨Option.some_ne_none _, h.promote hip ?_ ?_⟩
      · intro hzero j hji hj
        exact hji (h.apart j i (hj ▸ hzero) (hj.trans hip.symm))
      · intro hzero
        have hknows : Knows (r.trackers i) (lines a.ip tr) := hip ▸ h.knows i (hip ▸ hzero)
        obtain ⟨H', hpush⟩ := hknows.push hline
        exact ⟨push_getLast _ _, fun _ => ⟨H', _, hpush, rfl⟩⟩

/-! ## What is prefetched -/

theorem mem_prefetches {stride : Word} {pf : PrefetchCall} (h : pf ∈ a.prefetches stride) :
    (∃ k, k < PREFETCH_DEGREE ∧ pf.pfAddr = a.pfAddress stride k)
      ∧ pf.pfAddr >>> LOG2_PAGE_SIZE = a.addr >>> LOG2_PAGE_SIZE := by
  obtain ⟨x, hx, rfl⟩ := List.mem_map.1 h
  have hpage := List.all_eq_true.1 List.all_takeWhile x hx
  have hmem := (List.takeWhile_sublist _).subset hx
  obtain ⟨k, hk, hkx⟩ := List.mem_map.1 hmem
  exact ⟨⟨k, List.mem_range.1 hk, hkx.symm⟩, of_decide_eq_true hpage⟩

/-- A prefetch is issued for a tracker whose stride has come again. -/
theorem operate_prefetches {pfs : List PrefetchCall} {pf : PrefetchCall}
    (h : (r.operate a).1 = some pfs) (hpf : pf ∈ pfs) :
    ∃ i, (r.trackers i).ip = a.ip ∧ (r.trackers i).lastStride ≠ 0#64
      ∧ a.clAddr - (r.trackers i).lastClAddr = (r.trackers i).lastStride
      ∧ pf ∈ a.prefetches (r.trackers i).lastStride := by
  unfold operate at h
  split at h
  · split at h
    · cases h
    · obtain rfl := Option.some.inj h
      cases hpf
  · next i hfind =>
    dsimp only at h
    rw [lineStride_eq] at h
    split at h
    · obtain rfl := Option.some.inj h
      cases hpf
    · next hne =>
      obtain rfl := Option.some.inj h
      split at hpf
      · next hagain =>
        exact ⟨i, KeyTable.key_of_find hfind, hagain ▸ hne, hagain, hagain ▸ hpf⟩
      · cases hpf

/-- The trackers after the accesses `tr`. -/
abbrev after (n : Nat) (tr : List StrideAccess) : IpStride n := Mealy.run operate (new n) tr

theorem tracking_after (n : Nat) (tr : List StrideAccess) : Tracking (after n tr) tr :=
  Mealy.run_induction (P := fun tr r => Tracking r tr) tracking_new
    (fun _ _ a h => (h.operate a).2) tr

/-- **A prefetch goes on with a progression.** After any accesses there is a tracker for the
next one; and when it is an access by an instruction (`ip` is not 0) that issues prefetches,
the last two lines of the instruction and its new one lie at equal distances, and what is
prefetched are the next lines at this distance, in the page of the access. -/
theorem prefetches_progression (n : Nat) (tr : List StrideAccess) (a : StrideAccess) :
    ∃ pfs, ((after n tr).operate a).1 = some pfs ∧ (a.ip ≠ 0#64 → ∀ pf ∈ pfs,
      ∃ H x y, lines a.ip tr = H ++ [x, y] ∧ a.clAddr - y = y - x ∧ y ≠ x
        ∧ (∃ k, k < PREFETCH_DEGREE ∧ pf.pfAddr = a.pfAddress (y - x) k)
        ∧ pf.pfAddr >>> LOG2_PAGE_SIZE = a.addr >>> LOG2_PAGE_SIZE) := by
  have htracking := tracking_after n tr
  obtain ⟨pfs, hpfs⟩ := Option.ne_none_iff_exists'.1 (htracking.operate a).1
  refine ⟨pfs, hpfs, ?_⟩
  intro hzero pf hpf
  obtain ⟨i, hip, hstride, hagain, hmem⟩ := operate_prefetches hpfs hpf
  have hknows := htracking.knows i (hip ▸ hzero)
  obtain ⟨H, x, hlines, hdiff⟩ := hknows.stride hstride
  rw [hip] at hlines
  rw [hdiff] at hagain hmem hstride
  refine ⟨H, x, _, hlines, hagain, ?_, mem_prefetches hmem⟩
  intro hc
  apply hstride
  rw [hc, BitVec.sub_self]

end IpStride

end SandboxPredictor
