import Mathlib.Data.List.Induction

/- Rules for loops over a list: `foldl`, and `foldlM` in `Option` where a step may
   fail. -/
namespace Loop

variable {α β γ : Type}

/-- What no step changes, the loop does not change. -/
theorem foldl_keeps {f : α → β → α} {g : α → γ} (hstep : ∀ a b, g (f a b) = g a) (l : List β)
    (a : α) : g (l.foldl f a) = g a := by
  induction l generalizing a with
  | nil => rfl
  | cons b l ih =>
    calc g (l.foldl f (f a b)) = g (f a b) := ih (f a b)
      _ = g a := hstep a b

/-- The same for a loop that may fail. -/
theorem foldlM_keeps {f : α → β → Option α} {g : α → γ}
    (hstep : ∀ a b a', f a b = some a' → g a' = g a) {l : List β} {a a' : α}
    (h : l.foldlM f a = some a') : g a' = g a := by
  induction l generalizing a with
  | nil =>
    cases h
    rfl
  | cons b l ih =>
    rw [List.foldlM_cons] at h
    obtain ⟨a₁, hf, hl⟩ := Option.bind_eq_some_iff.1 h
    calc g a' = g a₁ := ih hl
      _ = g a := hstep a b a₁ hf

/-- A loop whose steps keep `P` and do not fail under it does not fail. -/
theorem foldlM_inv {f : α → β → Option α} {P : α → Prop} {l : List β}
    (hstep : ∀ a, ∀ b ∈ l, P a → ∃ a', f a b = some a' ∧ P a') {a : α} (ha : P a) :
    ∃ a', l.foldlM f a = some a' ∧ P a' := by
  induction l generalizing a with
  | nil => exact ⟨a, rfl, ha⟩
  | cons b l ih =>
    obtain ⟨a₁, hf, ha₁⟩ := hstep a b List.mem_cons_self ha
    obtain ⟨a₂, hl, ha₂⟩ := ih (fun a b hb => hstep a b (List.mem_cons_of_mem _ hb)) ha₁
    refine ⟨a₂, ?_, ha₂⟩
    rw [List.foldlM_cons, hf]
    exact hl

end Loop
