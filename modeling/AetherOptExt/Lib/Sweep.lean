import Mathlib.Data.List.Basic

/-! # Sweeps

A *sweep* folds a step over a list of items.  An item may write to a part `get` of the state
or leave it alone.  Items that leave it alone can be passed over (`foldl_frame`); when all
items that write agree on the value, and the part is fresh or has the value already, the sweep
leaves the value, however many of them there are and in whatever order (`foldl_write`).  A
property that the items that write bring about, and that the others keep, is reached
(`foldl_reach`). -/

namespace Sweep

variable {σ ι β : Type*} {step : σ → ι → σ} (get : σ → β)

/-- A part of the state that no item writes stays as it is. -/
theorem foldl_frame : ∀ (l : List ι) (s : σ), (∀ i ∈ l, ∀ s, get (step s i) = get s) →
    get (l.foldl step s) = get s
  | [], _, _ => rfl
  | i :: l, s, h => by
      rw [List.foldl_cons, foldl_frame l _ fun j hj => h j (List.mem_cons_of_mem i hj)]
      exact h i List.mem_cons_self s

/-- A part that is fresh, and that some items write, ends with the value they agree on. -/
theorem foldl_write {fresh v : β} (writes : ι → Prop) : ∀ (l : List ι) (s : σ),
    (∀ i ∈ l, ¬ writes i → ∀ s, get (step s i) = get s) →
    (∀ i ∈ l, writes i → ∀ s, get s = fresh ∨ get s = v → get (step s i) = v) →
    get s = fresh ∨ get s = v → (get s = v ∨ ∃ i ∈ l, writes i) → get (l.foldl step s) = v
  | [], _, _, _, _, h => h.resolve_right fun ⟨_, hi, _⟩ => absurd hi List.not_mem_nil
  | i :: l, s, hskip, hwrite, hs, h => by
      have hskip' := fun j hj => hskip j (List.mem_cons_of_mem i hj)
      have hwrite' := fun j hj => hwrite j (List.mem_cons_of_mem i hj)
      rw [List.foldl_cons]
      by_cases hi : writes i
      · have hv := hwrite i List.mem_cons_self hi s hs
        exact foldl_write writes l _ hskip' hwrite' (Or.inr hv) (Or.inl hv)
      · have hkeep := hskip i List.mem_cons_self hi s
        refine foldl_write writes l _ hskip' hwrite' (by rw [hkeep]; exact hs) ?_
        rw [hkeep]
        refine h.imp_right fun ⟨j, hj, hw⟩ => ?_
        rcases List.mem_cons.mp hj with rfl | hj
        · exact absurd hw hi
        · exact ⟨j, hj, hw⟩

/-- What the items that write bring about, and what the others keep, holds at the end; `I` is kept
by all of them. -/
theorem foldl_reach {I P : σ → Prop} (writes : ι → Prop) : ∀ (l : List ι) (s : σ),
    (∀ i ∈ l, ∀ s, I s → I (step s i)) → (∀ i ∈ l, ¬ writes i → ∀ s, I s → P s → P (step s i)) →
    (∀ i ∈ l, writes i → ∀ s, I s → P (step s i)) → I s → (P s ∨ ∃ i ∈ l, writes i) →
    I (l.foldl step s) ∧ P (l.foldl step s)
  | [], _, _, _, _, hI, h => ⟨hI, h.resolve_right fun ⟨_, hi, _⟩ => absurd hi List.not_mem_nil⟩
  | i :: l, s, hstep, hkeep, hwrite, hI, h => by
      rw [List.foldl_cons]
      refine foldl_reach writes l _ (fun j hj => hstep j (List.mem_cons_of_mem i hj))
        (fun j hj => hkeep j (List.mem_cons_of_mem i hj)) (fun j hj => hwrite j (List.mem_cons_of_mem i hj))
        (hstep i List.mem_cons_self s hI) ?_
      by_cases hi : writes i
      · exact Or.inl (hwrite i List.mem_cons_self hi s hI)
      · rcases h with h | ⟨j, hj, hw⟩
        · exact Or.inl (hkeep i List.mem_cons_self hi s hI h)
        · rcases List.mem_cons.mp hj with rfl | hj
          · exact absurd hw hi
          · exact Or.inr ⟨j, hj, hw⟩

end Sweep
