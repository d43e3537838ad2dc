import Mathlib.Logic.Relation
import Mathlib.Data.Nat.Basic
import Mathlib.Algebra.GroupWithZero.Nat
import Mathlib.Data.Option.Basic

/-! # Guarded runs of a labelled transition function

A system is a partial transition function `step : σ → α → Option σ`; `none` says that the
label is not enabled.  A *guard* `ok : σ → α → Prop` restricts which labels may be taken in
which states: `Steps step ok s s'` is a run from `s` to `s'` all of whose steps meet the
guard in the state they leave.  An assumption on the environment, or a condition under which
a property is claimed, is such a guard, so that one notion of run serves all of them.

The rules are the usual ones: a predicate that every guarded step keeps holds along every
guarded run (`Steps.invariant`), a weaker guard has more runs (`Steps.mono`), and the
executable `run` of a list of labels is a run in this sense (`steps_of_run`); where the guard is
decidable, `checkedRun` tests it as it goes.  A potential bounds how often a run can take the
steps that lower it (`run_potential`). -/

namespace Runs

variable {σ α : Type*} {step : σ → α → Option σ} {ok ok' : σ → α → Prop}

/-- Take the labels of a list in order; `none` as soon as one of them is not enabled. -/
def run (step : σ → α → Option σ) : σ → List α → Option σ
  | s, [] => some s
  | s, a :: as => (step s a).bind (fun s' => run step s' as)

/-- `s'` is reached from `s` by steps that all meet the guard. -/
inductive Steps (step : σ → α → Option σ) (ok : σ → α → Prop) : σ → σ → Prop
  | refl (s : σ) : Steps step ok s s
  | tail {s s₁ s₂ : σ} {a : α} :
      Steps step ok s s₁ → ok s₁ a → step s₁ a = some s₂ → Steps step ok s s₂

/-- The states reached from an initial state by guarded steps. -/
def Reachable (step : σ → α → Option σ) (ok : σ → α → Prop) (init : σ → Prop) (s : σ) : Prop :=
  ∃ s₀, init s₀ ∧ Steps step ok s₀ s

theorem Steps.single {s s' : σ} {a : α} (h : ok s a) (hs : step s a = some s') :
    Steps step ok s s' :=
  .tail (.refl s) h hs

theorem Steps.trans {s s₁ s₂ : σ} (h₁ : Steps step ok s s₁) (h₂ : Steps step ok s₁ s₂) :
    Steps step ok s s₂ := by
  induction h₂ with
  | refl => exact h₁
  | tail _ hok hs ih => exact .tail ih hok hs

theorem Steps.mono (h : ∀ s a, ok s a → ok' s a) {s s' : σ} (hr : Steps step ok s s') :
    Steps step ok' s s' := by
  induction hr with
  | refl => exact .refl _
  | tail _ hok hs ih => exact .tail ih (h _ _ hok) hs

/-- The invariant rule: what every guarded step keeps, every guarded run keeps. -/
theorem Steps.invariant {I : σ → Prop}
    (hstep : ∀ s a s', I s → ok s a → step s a = some s' → I s')
    {s s' : σ} (hr : Steps step ok s s') (h : I s) : I s' := by
  induction hr with
  | refl => exact h
  | tail _ hok hs ih => exact hstep _ _ _ ih hok hs

theorem Reachable.invariant {I init : σ → Prop} (hinit : ∀ s, init s → I s)
    (hstep : ∀ s a s', I s → ok s a → step s a = some s' → I s')
    {s : σ} (hr : Reachable step ok init s) : I s := by
  obtain ⟨s₀, h₀, hr⟩ := hr
  exact hr.invariant hstep (hinit s₀ h₀)

theorem Reachable.mono {init : σ → Prop} (h : ∀ s a, ok s a → ok' s a) {s : σ}
    (hr : Reachable step ok init s) : Reachable step ok' init s := by
  obtain ⟨s₀, h₀, hr⟩ := hr
  exact ⟨s₀, h₀, hr.mono h⟩

/-- An invariant may be assumed in every state that a run leaves. -/
theorem Reachable.strengthen {I init : σ → Prop} (hinit : ∀ s, init s → I s)
    (hstep : ∀ s a s', I s → ok s a → step s a = some s' → I s') {s : σ} (hr : Reachable step ok init s) :
    Reachable step (fun s a => ok s a ∧ I s) init s := by
  obtain ⟨s₀, h₀, hr⟩ := hr
  have hboth : I s ∧ Steps step (fun s a => ok s a ∧ I s) s₀ s := by
    induction hr with
    | refl => exact ⟨hinit _ h₀, .refl _⟩
    | tail _ hok hs ih => exact ⟨hstep _ _ _ ih.1 hok hs, .tail ih.2 ⟨hok, ih.1⟩ hs⟩
  exact ⟨s₀, h₀, hboth.2⟩

/-- An executed list of labels is a run, when the guard accepts each of its labels. -/
theorem steps_of_run : ∀ {s s' : σ} {as : List α}, (∀ a ∈ as, ∀ s, ok s a) →
    run step s as = some s' → Steps step ok s s'
  | s, s', [], _, h => by
      obtain rfl : s = s' := Option.some.inj h
      exact .refl s
  | s, s', a :: as, hok, h => by
      obtain ⟨s₁, hs, hr⟩ := Option.bind_eq_some_iff.mp h
      exact (Steps.single (hok a List.mem_cons_self s) hs).trans
        (steps_of_run (fun b hb => hok b (List.mem_cons_of_mem a hb)) hr)

/-- An executed list of labels that ends in a state with a decidable property. -/
theorem exists_run (step : σ → α → Option σ) (s : σ) (as : List α) (p : σ → Bool)
    (h : (run step s as).any p = true) : ∃ s', run step s as = some s' ∧ p s' = true :=
  (Option.any_eq_true p _).mp h

/-! ### Counting steps -/

/-- The potential rule: where every step pays for its `work` out of a potential that it may raise
by its `gain`, the work of a run is bounded by the potential at its start and the gains. -/
theorem run_potential {I : σ → Prop} {potential : σ → ℕ} {work gain : α → ℕ}
    (hstep : ∀ s a s', I s → step s a = some s' → I s' ∧ potential s' + work a ≤ potential s + gain a) :
    ∀ {s s' : σ} {as : List α}, I s → run step s as = some s' →
      I s' ∧ potential s' + (as.map work).sum ≤ potential s + (as.map gain).sum
  | s, s', [], hI, h => by
      obtain rfl : s = s' := Option.some.inj h
      exact ⟨hI, Nat.le_refl _⟩
  | s, s', a :: as, hI, h => by
      obtain ⟨s₁, hs, hr⟩ := Option.bind_eq_some_iff.mp h
      obtain ⟨hI₁, hle⟩ := hstep s a s₁ hI hs
      obtain ⟨hI', hle'⟩ := run_potential hstep hI₁ hr
      refine ⟨hI', ?_⟩
      simp only [List.map_cons, List.sum_cons]
      omega

/-! ### Checked runs -/

/-- Take the labels of a list in order; `none` as soon as one of them does not meet the guard or
is not enabled. -/
def checkedRun (step : σ → α → Option σ) (ok : σ → α → Prop) [∀ s a, Decidable (ok s a)] : σ → List α → Option σ
  | s, [] => some s
  | s, a :: as => if ok s a then (step s a).bind (fun s' => checkedRun step ok s' as) else none

theorem steps_of_checkedRun [∀ s a, Decidable (ok s a)] : ∀ {s s' : σ} {as : List α},
    checkedRun step ok s as = some s' → Steps step ok s s'
  | s, s', [], h => by
      obtain rfl : s = s' := Option.some.inj h
      exact .refl s
  | s, s', a :: as, h => by
      unfold checkedRun at h
      by_cases hok : ok s a
      case neg =>
        rw [if_neg hok] at h
        cases h
      rw [if_pos hok] at h
      obtain ⟨s₁, hs, hr⟩ := Option.bind_eq_some_iff.mp h
      exact (Steps.single hok hs).trans (steps_of_checkedRun hr)

/-- A checked list of labels that ends in a state with a decidable property. -/
theorem exists_checkedRun (step : σ → α → Option σ) (ok : σ → α → Prop) [∀ s a, Decidable (ok s a)] (s : σ)
    (as : List α) (p : σ → Bool) (h : (checkedRun step ok s as).any p = true) :
    ∃ s', Steps step ok s s' ∧ p s' = true := by
  obtain ⟨s', hs, hp⟩ := (Option.any_eq_true p _).mp h
  exact ⟨s', steps_of_checkedRun hs, hp⟩

end Runs
