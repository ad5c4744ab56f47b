import Mathlib.Algebra.GroupWithZero.Nat
import SandboxPredictor.Lib.Mealy

/- Books kept over the runs of a Mealy machine: invariants of the steps that meet a
   condition, what such steps emit, and stock accounts. When every step leaves in
   stock what was there, plus what it brings, less what it takes, so does every
   run: nothing is lost and nothing is taken twice. -/
namespace Mealy

variable {σ ι ο : Type} {step : σ → ι → ο × σ} {s : σ} {C : σ → ι → Prop} {I : σ → Prop}

/-- An invariant of the steps that meet `C`. -/
theorem run_invariant_along (hstep : ∀ s i, I s → C s i → I (step s i).2) (h0 : I s)
    {tr : List ι} (htr : Along step C s tr) : I (run step s tr) :=
  run_induction_along (P := fun _ s => I s) h0 (fun _ s i => hstep s i) tr htr

/-- What every step that meets `C` emits under an invariant is all a run emits. -/
theorem forall_outputs_along {G : ο → Prop}
    (hstep : ∀ s i, I s → C s i → I (step s i).2 ∧ G (step s i).1) (h0 : I s)
    {tr : List ι} (htr : Along step C s tr) : ∀ o ∈ outputs step s tr, G o := by
  induction tr generalizing s with
  | nil => intro o ho; cases ho
  | cons i tr ih =>
    obtain ⟨hC, htr⟩ := htr
    obtain ⟨hI, hG⟩ := hstep s i h0 hC
    intro o ho
    rcases List.mem_cons.1 ho with rfl | ho
    · exact hG
    · exact ih hI htr o ho

/-- **Stock.** What is in stock after a run is what was there, plus what the steps brought,
less what they took. -/
theorem balance {held : σ → Nat} {put take : ο → Nat}
    (hstep : ∀ s i, I s → C s i → I (step s i).2
      ∧ held (step s i).2 + take (step s i).1 = held s + put (step s i).1)
    (h0 : I s) {tr : List ι} (htr : Along step C s tr) :
    held (run step s tr) + ((outputs step s tr).map take).sum
      = held s + ((outputs step s tr).map put).sum := by
  induction tr generalizing s with
  | nil => rfl
  | cons i tr ih =>
    obtain ⟨hC, htr⟩ := htr
    obtain ⟨hI, hbal⟩ := hstep s i h0 hC
    have hrest := ih hI htr
    rw [run_cons, outputs, List.map_cons, List.map_cons, List.sum_cons, List.sum_cons]
    omega

/-- What an earlier output leaves behind bears on every later one: `J o` holds once `o` has
been emitted, is kept, and relates `o` to whatever is emitted under it. -/
theorem pairwise_outputs {R : ο → ο → Prop} {J : ο → σ → Prop}
    (hinv : ∀ s i, I s → C s i → I (step s i).2)
    (hleave : ∀ s i, I s → C s i → J (step s i).1 (step s i).2)
    (hkeep : ∀ o s i, I s → C s i → J o s → J o (step s i).2)
    (hrel : ∀ o s i, I s → C s i → J o s → R o (step s i).1)
    (h0 : I s) {tr : List ι} (htr : Along step C s tr) : (outputs step s tr).Pairwise R := by
  have hafter : ∀ (o : ο) (tr : List ι) (s : σ), I s → Along step C s tr → J o s →
      ∀ o' ∈ outputs step s tr, R o o' := by
    intro o tr
    induction tr with
    | nil => intro s _ _ _ o' ho'; cases ho'
    | cons i tr ih =>
      rintro s hI ⟨hC, htr⟩ hJ o' ho'
      rcases List.mem_cons.1 ho' with rfl | ho'
      · exact hrel o s i hI hC hJ
      · exact ih _ (hinv s i hI hC) htr (hkeep o s i hI hC hJ) o' ho'
  induction tr generalizing s with
  | nil => exact List.Pairwise.nil
  | cons i tr ih =>
    obtain ⟨hC, htr⟩ := htr
    refine List.Pairwise.cons ?_ (ih (hinv s i h0 hC) htr)
    exact hafter _ tr _ (hinv s i h0 hC) htr (hleave s i h0 hC)

end Mealy
