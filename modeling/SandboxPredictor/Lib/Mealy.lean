import Mathlib.Data.List.Induction

/- Runs of a Mealy machine given as a step function `σ → ι → ο × σ`, and the
   rules the rest of the development reasons about runs with:

   1. `run_induction`: a property of the trace read so far and the state it
      leads to holds after every run, if one step preserves it;
   2. `run_induction_along`: the same when every step of the run also meets a
      condition on the state before it and its input (`Along`);
   3. `countP_observe_le`: a potential that no step raises bounds the steps of a
      run that lower it;
   4. `run_component`: a component that each step moves as a machine of its own goes
      through the run of that machine;
   5. `simulation`: two machines related by a relation that one step keeps, and
      under which one step emits the same output, emit the same outputs. -/
namespace Mealy

variable {σ τ ι ο : Type}

/-- The state after reading a trace. -/
def run (step : σ → ι → ο × σ) (s : σ) (tr : List ι) : σ :=
  tr.foldl (fun s i => (step s i).2) s

/-- The outputs emitted while reading a trace, first output first. -/
def outputs (step : σ → ι → ο × σ) : σ → List ι → List ο
  | _, [] => []
  | s, i :: tr => (step s i).1 :: outputs step (step s i).2 tr

/-- What `f` sees at each step of a run: a ghost that the run does not read. -/
def observe {α : Type} (step : σ → ι → ο × σ) (f : σ → ι → α) (s : σ) (tr : List ι) : List α :=
  outputs (fun s i => (f s i, (step s i).2)) s tr

/-- The last value that `f` sees in a run, `a` when it sees none. -/
def lastSeen {α : Type} (step : σ → ι → ο × σ) (f : σ → ι → Option α) (a : α) (s : σ)
    (tr : List ι) : α :=
  (observe step f s tr).foldl (fun last x => x.getD last) a

/-- What `f` sees in a run, the steps at which it sees nothing left out. -/
def collect {α : Type} (step : σ → ι → ο × σ) (f : σ → ι → Option α) (s : σ) (tr : List ι) :
    List α :=
  (observe step f s tr).filterMap id

/-- Every step of the run from `s` meets `C`, a condition on the state before
the step and the input it reads. -/
def Along (step : σ → ι → ο × σ) (C : σ → ι → Prop) : σ → List ι → Prop
  | _, [] => True
  | s, i :: tr => C s i ∧ Along step C (step s i).2 tr

instance decidableAlong (step : σ → ι → ο × σ) (C : σ → ι → Prop)
    [∀ s i, Decidable (C s i)] : ∀ (tr : List ι) (s : σ), Decidable (Along step C s tr)
  | [], _ => isTrue trivial
  | i :: tr, s =>
    have := decidableAlong step C tr (step s i).2
    inferInstanceAs (Decidable (C s i ∧ Along step C (step s i).2 tr))

section
variable {step : σ → ι → ο × σ} {s : σ}

@[simp] theorem run_nil : run step s [] = s := rfl

@[simp] theorem run_cons (i : ι) (tr : List ι) :
    run step s (i :: tr) = run step (step s i).2 tr := rfl

theorem run_append (tr tr' : List ι) :
    run step s (tr ++ tr') = run step (run step s tr) tr' := List.foldl_append

@[simp] theorem run_snoc (tr : List ι) (i : ι) :
    run step s (tr ++ [i]) = (step (run step s tr) i).2 := by
  rw [run_append]; rfl

theorem outputs_append (tr tr' : List ι) :
    outputs step s (tr ++ tr') = outputs step s tr ++ outputs step (run step s tr) tr' := by
  induction tr generalizing s with
  | nil => rfl
  | cons i tr ih => simp only [List.cons_append, outputs, run_cons, ih]

theorem drop_outputs (tr tr' : List ι) :
    (outputs step s (tr ++ tr')).drop tr.length = outputs step (run step s tr) tr' := by
  induction tr generalizing s with
  | nil => rfl
  | cons i tr ih => exact ih

theorem length_outputs (tr : List ι) : (outputs step s tr).length = tr.length := by
  induction tr generalizing s with
  | nil => rfl
  | cons i tr ih => simp only [outputs, List.length_cons, ih]

theorem observe_append {α : Type} (f : σ → ι → α) (tr tr' : List ι) :
    observe step f s (tr ++ tr') = observe step f s tr ++ observe step f (run step s tr) tr' := by
  induction tr generalizing s with
  | nil => rfl
  | cons j tr ih =>
    show f s j :: observe step f (step s j).2 (tr ++ tr') = _
    rw [ih]
    rfl

theorem observe_snoc {α : Type} (f : σ → ι → α) (tr : List ι) (i : ι) :
    observe step f s (tr ++ [i]) = observe step f s tr ++ [f (run step s tr) i] :=
  observe_append f tr [i]

theorem length_observe {α : Type} (f : σ → ι → α) (tr : List ι) :
    (observe step f s tr).length = tr.length := length_outputs tr

theorem lastSeen_snoc {α : Type} (f : σ → ι → Option α) (a : α) (tr : List ι) (i : ι) :
    lastSeen step f a s (tr ++ [i]) = (f (run step s tr) i).getD (lastSeen step f a s tr) := by
  unfold lastSeen
  rw [observe_snoc, List.foldl_append]
  rfl

theorem collect_snoc {α : Type} (f : σ → ι → Option α) (tr : List ι) (i : ι) :
    collect step f s (tr ++ [i]) = collect step f s tr ++ (f (run step s tr) i).toList := by
  unfold collect
  rw [observe_snoc, List.filterMap_append]
  cases f (run step s tr) i <;> rfl

theorem along_of_forall {C : ι → Prop} {tr : List ι} (h : ∀ i ∈ tr, C i) :
    Along step (fun _ i => C i) s tr := by
  induction tr generalizing s with
  | nil => trivial
  | cons i tr ih =>
    exact ⟨h i List.mem_cons_self, ih (fun j hj => h j (List.mem_cons_of_mem i hj))⟩

theorem along_of_prefix {C : σ → ι → Prop} {tr : List ι}
    (h : ∀ pre i post, tr = pre ++ i :: post → C (run step s pre) i) : Along step C s tr := by
  induction tr generalizing s with
  | nil => trivial
  | cons j tr ih =>
    refine ⟨h [] j tr rfl, ih ?_⟩
    intro pre i post hsplit
    exact h (j :: pre) i post (by rw [hsplit, List.cons_append])

theorem along_and {C D : σ → ι → Prop} {tr : List ι} (hC : Along step C s tr)
    (hD : Along step D s tr) : Along step (fun s i => C s i ∧ D s i) s tr := by
  induction tr generalizing s with
  | nil => trivial
  | cons i tr ih => exact ⟨⟨hC.1, hD.1⟩, ih hC.2 hD.2⟩

theorem Along.imp {C D : σ → ι → Prop} (himp : ∀ s i, C s i → D s i) {tr : List ι}
    (h : Along step C s tr) : Along step D s tr := by
  induction tr generalizing s with
  | nil => trivial
  | cons i tr ih => exact ⟨himp s i h.1, ih h.2⟩

theorem along_append {C : σ → ι → Prop} (tr tr' : List ι) :
    Along step C s (tr ++ tr') ↔ Along step C s tr ∧ Along step C (run step s tr) tr' := by
  induction tr generalizing s with
  | nil => simp [Along]
  | cons j tr ih => simp [Along, ih, and_assoc]

theorem along_snoc {C : σ → ι → Prop} (tr : List ι) (i : ι) :
    Along step C s (tr ++ [i]) ↔ Along step C s tr ∧ C (run step s tr) i := by
  rw [along_append]
  simp [Along]

/-- Two conditions that agree under an invariant, which steps meeting one of them keep, are
met along the same runs. -/
theorem along_congr {C D : σ → ι → Prop} {I : σ → Prop} (h0 : I s)
    (hiff : ∀ s i, I s → (C s i ↔ D s i)) (hstep : ∀ s i, I s → C s i → I (step s i).2)
    (tr : List ι) : Along step C s tr ↔ Along step D s tr := by
  induction tr generalizing s with
  | nil => exact Iff.rfl
  | cons i tr ih =>
    refine ⟨?_, ?_⟩
    · intro ⟨hC, htr⟩
      exact ⟨(hiff s i h0).1 hC, (ih (hstep s i h0 hC)).1 htr⟩
    · intro ⟨hD, htr⟩
      have hC := (hiff s i h0).2 hD
      exact ⟨hC, (ih (hstep s i h0 hC)).2 htr⟩

/-- What a step meeting `C` preserves holds after every run whose steps all
meet `C`. -/
theorem run_induction_along {C : σ → ι → Prop} {P : List ι → σ → Prop} (h0 : P [] s)
    (hstep : ∀ tr s i, P tr s → C s i → P (tr ++ [i]) (step s i).2) :
    ∀ tr, Along step C s tr → P tr (run step s tr) := by
  intro tr
  induction tr using List.reverseRecOn with
  | nil => intro _; exact h0
  | append_singleton tr i ih =>
    intro h
    rw [along_snoc] at h
    rw [run_snoc]
    exact hstep tr _ i (ih h.1) h.2

/-- What every step preserves holds after every run. -/
theorem run_induction {P : List ι → σ → Prop} (h0 : P [] s)
    (hstep : ∀ tr s i, P tr s → P (tr ++ [i]) (step s i).2) (tr : List ι) :
    P tr (run step s tr) := by
  induction tr using List.reverseRecOn with
  | nil => exact h0
  | append_singleton tr i ih => rw [run_snoc]; exact hstep tr _ i ih

/-- An invariant of the state alone. -/
theorem run_invariant {P : σ → Prop} (hstep : ∀ s i, P s → P (step s i).2) (h0 : P s)
    (tr : List ι) : P (run step s tr) :=
  run_induction (P := fun _ s => P s) h0 (fun _ s i => hstep s i) tr

/-- When every step keeps `I` and has an output in `G` under it, all outputs of a run are
in `G`. -/
theorem forall_outputs {C : ι → Prop} {I : σ → Prop} {G : ο → Prop}
    (hstep : ∀ s i, I s → C i → G (step s i).1 ∧ I (step s i).2)
    {tr : List ι} (htr : ∀ i ∈ tr, C i) (h0 : I s) : ∀ o ∈ outputs step s tr, G o := by
  induction tr generalizing s with
  | nil => intro o ho; cases ho
  | cons i tr ih =>
    obtain ⟨hG, hI⟩ := hstep s i h0 (htr i List.mem_cons_self)
    intro o ho
    rcases List.mem_cons.1 ho with rfl | ho
    · exact hG
    · exact ih (fun j hj => htr j (List.mem_cons_of_mem i hj)) hI o ho

/-- **Potential.** When no step of the run raises `phi` and every step in `B` lowers it, at
most `phi s` steps are in `B`. -/
theorem countP_observe_le {C : σ → ι → Prop} {I : σ → Prop} {phi : σ → Nat}
    {B : σ → ι → Bool}
    (hstep : ∀ s i, I s → C s i → I (step s i).2 ∧
      phi (step s i).2 + (if B s i then 1 else 0) ≤ phi s)
    {tr : List ι} (htr : Along step C s tr) (h0 : I s) :
    (observe step B s tr).countP id ≤ phi s := by
  induction tr generalizing s with
  | nil => exact Nat.zero_le _
  | cons i tr ih =>
    obtain ⟨hC, htr⟩ := htr
    obtain ⟨hI, hphi⟩ := hstep s i h0 hC
    have hrest := ih htr hI
    show (B s i :: observe step B (step s i).2 tr).countP id ≤ phi s
    rw [List.countP_cons, id]
    omega

theorem observe_outputs {α : Type} (f : ο → α) (tr : List ι) :
    observe step (fun s i => f (step s i).1) s tr = (outputs step s tr).map f := by
  induction tr generalizing s with
  | nil => rfl
  | cons i tr ih =>
    rw [outputs, List.map_cons, ← ih]
    rfl

/-- The same for bad outputs, under a condition on the inputs. -/
theorem countP_outputs_le {C : ι → Prop} {I : σ → Prop} {phi : σ → Nat} {bad : ο → Bool}
    (hstep : ∀ s i, I s → C i → I (step s i).2 ∧
      phi (step s i).2 + (if bad (step s i).1 then 1 else 0) ≤ phi s)
    {tr : List ι} (htr : ∀ i ∈ tr, C i) (h0 : I s) : (outputs step s tr).countP bad ≤ phi s := by
  have hseen := countP_observe_le (B := fun s i => bad (step s i).1) hstep
    (along_of_forall htr) h0
  rw [observe_outputs, List.countP_map] at hseen
  exact hseen

end

/-- **Components.** A part `p` of the states that every step moves as another machine does
is, after a run, where that machine is. -/
theorem run_component {κ π : Type} {f : σ → ι → ο × σ} {g : τ → κ → π × τ} {p : σ → τ}
    {q : ι → κ} (hstep : ∀ s i, p (f s i).2 = (g (p s) (q i)).2) (s : σ) (tr : List ι) :
    p (run f s tr) = run g (p s) (tr.map q) := by
  induction tr generalizing s with
  | nil => rfl
  | cons i tr ih =>
    rw [List.map_cons, run_cons, run_cons, ← hstep]
    exact ih (f s i).2

/-- What is observed of the component is what the other machine emits. -/
theorem observe_component {κ π : Type} {f : σ → ι → ο × σ} {g : τ → κ → π × τ} {p : σ → τ}
    {q : ι → κ} (hstep : ∀ s i, p (f s i).2 = (g (p s) (q i)).2) (s : σ) (tr : List ι) :
    observe f (fun s i => (g (p s) (q i)).1) s tr = outputs g (p s) (tr.map q) := by
  induction tr generalizing s with
  | nil => rfl
  | cons i tr ih =>
    rw [List.map_cons, outputs, ← hstep, ← ih (f s i).2]
    rfl

/-- **Simulation.** A relation kept by one step, under which one step emits the
same output, is kept by runs, and the runs emit the same outputs. -/
theorem simulation {f : σ → ι → ο × σ} {g : τ → ι → ο × τ} {R : σ → τ → Prop}
    (hstep : ∀ s t i, R s t → (f s i).1 = (g t i).1 ∧ R (f s i).2 (g t i).2) :
    ∀ (tr : List ι) (s : σ) (t : τ), R s t →
      outputs f s tr = outputs g t tr ∧ R (run f s tr) (run g t tr) := by
  intro tr
  induction tr with
  | nil => intro s t h; exact ⟨rfl, h⟩
  | cons i tr ih =>
    intro s t h
    obtain ⟨hout, hR⟩ := hstep s t i h
    obtain ⟨houts, hrun⟩ := ih _ _ hR
    exact ⟨by simp only [outputs, hout, houts], hrun⟩

end Mealy
