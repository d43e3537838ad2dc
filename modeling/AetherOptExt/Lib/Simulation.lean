import AetherOptExt.Lib.Runs

/-! # Simulations between guarded systems

A relation `R` between the states of a *concrete* and of an *abstract* system is a simulation
when every guarded concrete step from related states is matched by a guarded abstract run that
ends in related states.  The run may be empty (the step is invisible above) or of several steps.

Runs are then matched by runs (`Simulation.steps`), reachable states by reachable states
(`Simulation.reachable`), and what holds of every reachable abstract state can be read at every
reachable concrete one (`Simulation.transfer`). -/

namespace Runs

variable {σ τ α β : Type*} {step : σ → α → Option σ} {ok : σ → α → Prop} {step' : τ → β → Option τ}
  {ok' : τ → β → Prop} {R : σ → τ → Prop}

/-- Guarded steps of the first system are matched by guarded runs of the second. -/
def Simulation (step : σ → α → Option σ) (ok : σ → α → Prop) (step' : τ → β → Option τ) (ok' : τ → β → Prop)
    (R : σ → τ → Prop) : Prop :=
  ∀ s t a s₁, R s t → ok s a → step s a = some s₁ → ∃ t₁, Steps step' ok' t t₁ ∧ R s₁ t₁

theorem Simulation.steps (h : Simulation step ok step' ok' R) {s s₁ : σ} {t : τ} (hR : R s t)
    (hr : Steps step ok s s₁) : ∃ t₁, Steps step' ok' t t₁ ∧ R s₁ t₁ := by
  induction hr with
  | refl => exact ⟨t, .refl t, hR⟩
  | tail _ hok hs ih =>
      obtain ⟨t₁, hr₁, hR₁⟩ := ih
      obtain ⟨t₂, hr₂, hR₂⟩ := h _ t₁ _ _ hR₁ hok hs
      exact ⟨t₂, hr₁.trans hr₂, hR₂⟩

theorem Simulation.reachable (h : Simulation step ok step' ok' R) {init : σ → Prop} {init' : τ → Prop}
    (hinit : ∀ s, init s → ∃ t, init' t ∧ R s t) {s : σ} (hr : Reachable step ok init s) :
    ∃ t, Reachable step' ok' init' t ∧ R s t := by
  obtain ⟨s₀, h₀, hr⟩ := hr
  obtain ⟨t₀, ht₀, hR₀⟩ := hinit s₀ h₀
  obtain ⟨t, hr', hR⟩ := h.steps hR₀ hr
  exact ⟨t, ⟨t₀, ht₀, hr'⟩, hR⟩

/-- What holds of every reachable abstract state, read at the reachable concrete ones. -/
theorem Simulation.transfer (h : Simulation step ok step' ok' R) {init : σ → Prop} {init' : τ → Prop}
    (hinit : ∀ s, init s → ∃ t, init' t ∧ R s t) {P : τ → Prop} {Q : σ → Prop}
    (hP : ∀ t, Reachable step' ok' init' t → P t) (hread : ∀ s t, R s t → P t → Q s) {s : σ}
    (hr : Reachable step ok init s) : Q s := by
  obtain ⟨t, ht, hR⟩ := h.reachable hinit hr
  exact hread s t hR (hP t ht)

/-! ### Matching along the labels

Where the labels say which steps are visible above, a visible step is the one step that its label is
mapped to, and an invisible one leaves the abstract state as it is. -/

/-- A guarded step is the step that its label is mapped to, or none. -/
def LabelledSimulation (step : σ → α → Option σ) (ok : σ → α → Prop) (step' : τ → β → Option τ)
    (R : σ → τ → Prop) (visible : α → Option β) : Prop :=
  ∀ s t a s₁, R s t → ok s a → step s a = some s₁ →
    (∀ b, visible a = some b → ∃ t₁, step' t b = some t₁ ∧ R s₁ t₁) ∧ (visible a = none → R s₁ t)

/-- It is a simulation under any guard that the visible steps meet. -/
theorem LabelledSimulation.simulation {visible : α → Option β} (h : LabelledSimulation step ok step' R visible)
    (hok : ∀ s t a b, R s t → ok s a → visible a = some b → ok' t b) : Simulation step ok step' ok' R := by
  intro s t a s₁ hR ha hs
  obtain ⟨hvisible, hnone⟩ := h s t a s₁ hR ha hs
  cases hb : visible a with
  | none => exact ⟨t, .refl t, hnone hb⟩
  | some b =>
      obtain ⟨t₁, ht, hR₁⟩ := hvisible b hb
      exact ⟨t₁, .single (hok s t a b hR ha hb) ht, hR₁⟩

/-- A smaller guard leaves a simulation. -/
theorem LabelledSimulation.mono {visible : α → Option β} {ok₁ : σ → α → Prop}
    (h : LabelledSimulation step ok step' R visible) (hok : ∀ s a, ok₁ s a → ok s a) :
    LabelledSimulation step ok₁ step' R visible :=
  fun s t a s₁ hR ha hs => h s t a s₁ hR (hok s a ha) hs

/-! ### Matching a run from its end

An abstract label may fix what a concrete run finds out only later.  Then an abstract run is built from
the end of the concrete one: whatever is related to the state after a step is reached from something
related to the state before. -/

/-- Guarded steps of the first system are matched, from their ends, by guarded runs of the second. -/
def BackwardSimulation (step : σ → α → Option σ) (ok : σ → α → Prop) (step' : τ → β → Option τ)
    (ok' : τ → β → Prop) (R : σ → τ → Prop) : Prop :=
  ∀ s a s₁ t₁, ok s a → step s a = some s₁ → R s₁ t₁ → ∃ t, R s t ∧ Steps step' ok' t t₁

theorem BackwardSimulation.steps (h : BackwardSimulation step ok step' ok' R) {s s₁ : σ}
    (hr : Steps step ok s s₁) : ∀ t₁, R s₁ t₁ → ∃ t, R s t ∧ Steps step' ok' t t₁ := by
  induction hr with
  | refl => exact fun t₁ hR => ⟨t₁, hR, .refl t₁⟩
  | tail _ hok hs ih =>
      intro t₁ hR
      obtain ⟨t, ht, hlast⟩ := h _ _ _ t₁ hok hs hR
      obtain ⟨t₀, ht₀, hfirst⟩ := ih t ht
      exact ⟨t₀, ht₀, hfirst.trans hlast⟩

theorem BackwardSimulation.reachable (h : BackwardSimulation step ok step' ok' R) {init : σ → Prop}
    {init' : τ → Prop} (hinit : ∀ s t, init s → R s t → init' t) {s : σ} {t : τ} (hr : Reachable step ok init s)
    (hR : R s t) : Reachable step' ok' init' t := by
  obtain ⟨s₀, h₀, hr⟩ := hr
  obtain ⟨t₀, hR₀, hr'⟩ := h.steps hr t hR
  exact ⟨t₀, hinit s₀ t₀ h₀ hR₀, hr'⟩

end Runs
