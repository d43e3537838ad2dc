import AetherOptExt.System

/-! # Processes that follow each other under one id

A process id is given to a new process once no thread of the old one lives.  Events are stamped
with the process they were submitted for, so the waiting events of one id are in the order of
its processes, and none is of a process later than the live one (`InOrder`).  The lemmas before
it say where a live thread and a new event come from. -/

namespace AetherOptExt

namespace Sys

/-- A live thread belongs to the process `k` with the id `pid`. -/
def Running (s : Sys) (pid : Tid) (k : ℕ) : Prop :=
  ∃ t x, s.threads.lookup t = some x ∧ x.tgid = pid ∧ x.proc = k

/-- One process runs under an id. -/
theorem WellFormed.running_unique {s : Sys} (h : s.WellFormed) {pid : Tid} {k l : ℕ} (hk : s.Running pid k)
    (hl : s.Running pid l) : k = l := by
  obtain ⟨t, x, hx, hxp, rfl⟩ := hk
  obtain ⟨u, y, hy, hyp, rfl⟩ := hl
  exact h.group t x u y hx hy (hxp.trans hyp.symm)

/-- A thread that lives after a kernel action is of a running process, or of a new one under an
id that no process had. -/
theorem KernelCase.thread_source {s s' : Sys} {a : KernelAction} (h : KernelCase s a s') {pid : Tid} {k : ℕ}
    (hr : s'.Running pid k) : s.Running pid k ∨ (k = s.clock ∧ ∀ l, ¬ s.Running pid l) := by
  obtain ⟨t, y, hy, rfl, rfl⟩ := hr
  cases h with
  | @clone u c p hu hc =>
      rw [lookup_forked] at hy
      split_ifs at hy
      · obtain rfl := Option.some.inj hy
        exact Or.inl ⟨u, p, hu, rfl, rfl⟩
      · exact Or.inl ⟨t, y, hy, rfl, rfl⟩
  | @spawn u c p hu hc =>
      rw [lookup_forked] at hy
      split_ifs at hy
      · obtain rfl := Option.some.inj hy
        refine Or.inr ⟨rfl, ?_⟩
        rintro l ⟨v, x, hx, hg, -⟩
        exact hc.tgid_ne hx hg
      · exact Or.inl ⟨t, y, hy, rfl, rfl⟩
  | exec => exact Or.inl ⟨t, y, hy, rfl, rfl⟩
  | @takeover u g x hu hl hg ho =>
      rcases takenOver_source hy with ⟨-, rfl⟩ | ⟨-, hy⟩
      · exact Or.inl ⟨u, x, hu, rfl, rfl⟩
      · exact Or.inl ⟨t, y, hy, rfl, rfl⟩
  | @rename b u comm p x hb hu hg =>
      obtain ⟨z, hz, hyg, hyp, -⟩ := renamed_source hu hy
      exact Or.inl ⟨t, z, hz, hyg.symm, hyp.symm⟩
  | @exit u x hu => exact Or.inl ⟨t, y, exited_source hy, rfl, rfl⟩

theorem report_queue (s : Sys) (P : Prop) [Decidable P] (ev : ProcEvent) (st : Stamp) :
    (s.report P ev st).queue = s.queue ∨ (s.report P ev st).queue = s.queue ++ [(ev, st)] := by
  unfold report
  split_ifs
  · exact Or.inr rfl
  · exact Or.inl (List.append_nil _)

/-- A kernel action submits at most one event, of the process that acts. -/
theorem KernelCase.reporter {s s' : Sys} {a : KernelAction} (h : KernelCase s a s') :
    s'.queue = s.queue ∨ ∃ ev st, s'.queue = s.queue ++ [(ev, st)] ∧ s.Running ev.pid st.proc := by
  cases h with
  | @clone u c p hu hc => exact (report_queue _ _ _ _).imp_right fun hq => ⟨_, _, hq, u, p, hu, rfl, rfl⟩
  | @spawn u c p hu hc => exact (report_queue _ _ _ _).imp_right fun hq => ⟨_, _, hq, u, p, hu, rfl, rfl⟩
  | takeover => exact Or.inl rfl
  | @exec t x ht hl ho => exact (report_queue _ _ _ _).imp_right fun hq => ⟨_, _, hq, t, x, ht, rfl, rfl⟩
  | @rename b t comm p x hb ht hg => exact (report_queue _ _ _ _).imp_right fun hq => ⟨_, _, hq, b, p, hb, rfl, rfl⟩
  | @exit t x ht => exact (report_queue _ _ _ _).imp_right fun hq => ⟨_, _, hq, t, x, ht, rfl, rfl⟩

/-- The waiting events of an id are in the order of its processes; the running one is the last. -/
structure InOrder (s : Sys) : Prop where
  pairwise : s.queue.Pairwise (fun e f => e.1.pid = f.1.pid → e.2.proc ≤ f.2.proc)
  ahead : ∀ e ∈ s.queue, ∀ k, s.Running e.1.pid k → e.2.proc ≤ k

theorem InOrder.kernel {s s' : Sys} {a : KernelAction} (h : s.InOrder) (hw : s.WellFormed) (hk : KernelCase s a s') :
    s'.InOrder := by
  -- an old event, and the process that runs now
  have hold : ∀ e ∈ s.queue, ∀ k, s'.Running e.1.pid k → e.2.proc ≤ k := by
    intro e he k hr
    rcases hk.thread_source hr with hr | ⟨rfl, -⟩
    · exact h.ahead e he k hr
    · exact (hw.queued e he).1.le
  rcases hk.reporter with hq | ⟨ev, st, hq, hev⟩
  · refine ⟨by rw [hq]; exact h.pairwise, fun e he k hr => ?_⟩
    rw [hq] at he
    exact hold e he k hr
  · refine ⟨?_, fun e he k hr => ?_⟩
    · rw [hq]
      refine List.pairwise_append.mpr ⟨h.pairwise, List.pairwise_singleton _ _, fun e he f hf hp => ?_⟩
      obtain rfl := List.mem_singleton.mp hf
      exact h.ahead e he st.proc (by rw [hp]; exact hev)
    · rw [hq] at he
      rcases List.mem_append.mp he with he | he
      · exact hold e he k hr
      · obtain rfl := List.mem_singleton.mp he
        rcases hk.thread_source hr with hr | ⟨-, hnone⟩
        · exact (hw.running_unique hev hr).le
        · exact absurd hev (hnone _)

theorem InOrder.step {L : Layout} {s s' : Sys} {a : Action} (h : s.InOrder) (hw : s.WellFormed)
    (hs : step L s a = some s') : s'.InOrder := by
  have hc := step_case hs
  by_cases ha : ∀ k, a ≠ .kernel k
  · obtain ⟨hthreads, -, hqueue⟩ := hc.kernel_frame ha
    refine ⟨h.pairwise.sublist hqueue, fun e he k hr => h.ahead e (hqueue.subset he) k ?_⟩
    unfold Running at hr
    rw [hthreads] at hr
    exact hr
  · push Not at ha
    obtain ⟨k, rfl⟩ := ha
    cases hc with
    | kernel hk => exact h.kernel hw hk

theorem inOrder_init {s : Sys} (h : s.Init) : s.InOrder := by
  refine ⟨?_, fun e he => ?_⟩
  · rw [h.queue]
    exact List.Pairwise.nil
  · rw [h.queue] at he
    exact absurd he List.not_mem_nil

end Sys

end AetherOptExt
