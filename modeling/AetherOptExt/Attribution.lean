import AetherOptExt.System

/-! # Whom an event names

The fork hook takes the thread from the record and the process from the parent; the other hooks
take both from the current thread.  So an event names the right thread and its group, except
when a fork creates a process, which is filed under the parent's, and when a thread renames
another one, which is filed under the renamer (`event_right_iff`).

Along runs without reports of these two kinds, an event whose thread still lives names the
thread's group, and what `event_dispatch` writes into `tasks` is right
(`dispatch_attribution`). -/

namespace AetherOptExt

/-- The thread that is created, renamed, exec'ed or exited. -/
def KernelAction.subject : KernelAction → Tid
  | .clone _ c => c
  | .spawn _ c => c
  | .exec t => t
  | .takeover _ g => g
  | .rename _ t _ => t
  | .exit t => t

namespace Sys

/-- The subject of an action from `s` to `s'`: the thread as it is after it, or as it was, when
it exits. -/
def subjectThread (s s' : Sys) (a : KernelAction) : Option Thread :=
  (s'.threads.lookup a.subject).or (s.threads.lookup a.subject)

/-- The event names the subject and its group. -/
def RightEvent (s s' : Sys) (a : KernelAction) (ev : ProcEvent) : Prop :=
  ev.tid = a.subject ∧ ∃ x, subjectThread s s' a = some x ∧ ev.pid = x.tgid

theorem subjectThread_forked {s : Sys} {u c : Tid} {p child : Thread} (a : KernelAction) (ha : a.subject = c) :
    subjectThread s (s.forked u c p child) a = some child := by
  unfold subjectThread
  rw [ha, lookup_forked, if_pos rfl]
  rfl

/-- **An event is right exactly when the action stays within its own group and thread.** -/
theorem event_right_iff {s s' : Sys} {a : KernelAction} (h : KernelCase s a s') {ev : ProcEvent} {st : Stamp}
    (hq : s'.queue = s.queue ++ [(ev, st)]) : RightEvent s s' a ev ↔ a.OwnGroup := by
  cases h with
  | @clone u c p hu hc =>
      obtain ⟨-, he⟩ := report_eq hq
      obtain ⟨rfl, -⟩ := Prod.mk.inj he
      exact iff_of_true ⟨rfl, _, subjectThread_forked (.clone u c) rfl, rfl⟩ trivial
  | @spawn u c p hu hc =>
      obtain ⟨-, he⟩ := report_eq hq
      obtain ⟨rfl, -⟩ := Prod.mk.inj he
      refine iff_of_false ?_ id
      rintro ⟨-, x, hx, hg⟩
      obtain rfl := Option.some.inj ((subjectThread_forked (.spawn u c) rfl).symm.trans hx)
      exact hc.tgid_ne hu hg
  | @exec t x ht hl ho =>
      obtain ⟨-, he⟩ := report_eq hq
      obtain ⟨rfl, -⟩ := Prod.mk.inj he
      refine iff_of_true ⟨rfl, x, ?_, rfl⟩ trivial
      show (s.threads.lookup t).or (s.threads.lookup t) = some x
      rw [ht]
      rfl
  | @takeover t g x ht hl hg ho => exact absurd hq (takenOver_queue_ne s t g x (ev, st))
  | @rename u t comm p x hu ht hg =>
      obtain ⟨-, he⟩ := report_eq hq
      obtain ⟨rfl, -⟩ := Prod.mk.inj he
      constructor
      · rintro ⟨htid, -⟩
        exact htid
      · rintro rfl
        refine ⟨rfl, { x with comm := comm }, ?_, hg⟩
        show ((s.threads.insert u { x with comm := comm }).lookup u).or _ = _
        rw [KeyMap.lookup_insert, if_pos rfl]
        rfl
  | @exit t x ht =>
      obtain ⟨-, he⟩ := report_eq hq
      obtain ⟨rfl, -⟩ := Prod.mk.inj he
      refine iff_of_true ⟨rfl, x, ?_, rfl⟩ trivial
      show ((s.threads.erase t).lookup t).or (s.threads.lookup t) = some x
      rw [KeyMap.lookup_erase, if_pos rfl, ht]
      rfl

/-! ### Runs -/

/-- No kernel action of the step reports another group's or another thread's event, and an
event that is handled and can bind names a thread that has exited or is the one it was submitted
for. -/
def AttributionOk (L : Layout) (s : Sys) : Action → Prop
  | .kernel a => a.OwnGroup ∨ ∀ s', s.kernelStep L a = some s' → s'.queue = s.queue
  | .dispatch _ => ∀ ev st q, s.queue = (ev, st) :: q → Binds ev →
      ∀ x, s.threads.lookup ev.tid = some x → x.born = st.born
  | _ => True

/-- The waiting events name the groups of the threads they were submitted for. -/
def QueueRight (s : Sys) : Prop :=
  ∀ e ∈ s.queue, ∀ x, s.threads.lookup e.1.tid = some x → x.born = e.2.born → e.1.pid = x.tgid

/-- The queue is kept when no new event is submitted and the threads' groups stay. -/
theorem QueueRight.mono {s s' : Sys} (h : s.QueueRight) (hq : ∀ e ∈ s'.queue, e ∈ s.queue)
    (ht : ∀ t x, s'.threads.lookup t = some x → ∃ y, s.threads.lookup t = some y ∧ x.born = y.born ∧ x.tgid = y.tgid) :
    s'.QueueRight := by
  intro e he x hx hb
  obtain ⟨y, hy, hxb, hxg⟩ := ht _ x hx
  rw [hxg]
  exact h e (hq e he) y hy (hxb.symm.trans hb)

/-- A report of an event that names its thread's group. -/
theorem QueueRight.report {s : Sys} (h : s.QueueRight) (P : Prop) [Decidable P] {ev : ProcEvent} {st : Stamp}
    (hev : ∀ x, s.threads.lookup ev.tid = some x → ev.pid = x.tgid) : (s.report P ev st).QueueRight := by
  intro e he x hx hb
  rcases mem_report.mp he with he | ⟨-, rfl⟩
  · exact h e he x hx hb
  · exact hev x hx

/-- A new thread is none that a waiting event was submitted for. -/
theorem QueueRight.insert {s : Sys} (h : s.QueueRight) (hw : s.WellFormed) {c : Tid} {child : Thread}
    (hb : child.born = s.clock) (m : AppliedMap) (n : ℕ) :
    QueueRight { s with threads := s.threads.insert c child, applied := m, clock := n } := by
  intro e he x hx hxb
  change (s.threads.insert c child).lookup e.1.tid = some x at hx
  rw [KeyMap.lookup_insert] at hx
  split_ifs at hx
  · obtain rfl := Option.some.inj hx
    have := (hw.queued e he).2
    omega
  · exact h e he x hx hxb

theorem QueueRight.kernel {s s' : Sys} {a : KernelAction} (h : s.QueueRight) (hw : s.WellFormed)
    (hk : KernelCase s a s') (hok : a.OwnGroup ∨ s'.queue = s.queue) : s'.QueueRight := by
  cases hk with
  | @clone u c p hu hc =>
      refine QueueRight.report (h.insert hw rfl _ _) _ fun x hx => ?_
      change (s.threads.insert c _).lookup c = some x at hx
      rw [KeyMap.lookup_insert, if_pos rfl] at hx
      obtain rfl := Option.some.inj hx
      rfl
  | @spawn u c p hu hc =>
      have hq := hok.resolve_left id
      intro e he
      rw [hq] at he
      exact @QueueRight.insert s h hw c ⟨c, p.comm, s.clock, s.clock⟩ rfl s.applied s.clock e he
  | @exec t x ht hl ho =>
      refine h.report _ fun y hy => ?_
      change s.threads.lookup t = some y at hy
      rw [ht] at hy
      obtain rfl := Option.some.inj hy
      rfl
  | @takeover t g x ht hl hg ho =>
      intro e he y hy hb
      rcases takenOver_source hy with ⟨-, rfl⟩ | ⟨-, hy⟩
      · -- the id has just been taken, and the event is older
        have hpast : e.2.born < s.clock := (hw.queued e he).2
        exact absurd hb hpast.ne'
      · exact h e he y hy hb
  | @rename u t comm p x hu ht hg =>
      have hmono : QueueRight { s with threads := s.threads.insert t { x with comm := comm } } := by
        refine h.mono (fun e he => he) fun v y hv => ?_
        obtain ⟨z, hz, hyg, -, hyb⟩ := renamed_source ht hv
        exact ⟨z, hz, hyb, hyg⟩
      refine hmono.report _ fun y hy => ?_
      change (s.threads.insert t _).lookup u = some y at hy
      show p.tgid = y.tgid
      rw [KeyMap.lookup_insert] at hy
      split_ifs at hy
      · obtain rfl := Option.some.inj hy
        exact hg
      · rw [hu] at hy
        obtain rfl := Option.some.inj hy
        rfl
  | @exit t x ht =>
      have hmono : QueueRight { s with threads := s.threads.erase t
                                       applied := if t ∈ s.applied then s.applied.erase t else s.applied } := by
        exact h.mono (fun e he => he) fun v y hv => ⟨y, exited_source hv, rfl, rfl⟩
      refine hmono.report _ fun y hy => ?_
      change (s.threads.erase t).lookup t = some y at hy
      rw [KeyMap.lookup_erase, if_pos rfl] at hy
      cases hy

theorem QueueRight.step {L : Layout} {s s' : Sys} {a : Action} (h : s.QueueRight) (hw : s.WellFormed)
    (hok : AttributionOk L s a) (hs : step L s a = some s') : s'.QueueRight := by
  have hc := step_case hs
  by_cases ha : ∀ k, a ≠ .kernel k
  · obtain ⟨hthreads, -, hqueue⟩ := hc.kernel_frame ha
    exact h.mono hqueue.subset fun t x hx => ⟨x, by rw [← hthreads]; exact hx, rfl, rfl⟩
  · push Not at ha
    obtain ⟨k, rfl⟩ := ha
    cases hc with
    | kernel hk => exact h.kernel hw hk (hok.imp_right fun hq => hq s' hs)

/-- What an event writes carries the event's process, and only its own thread is written. -/
theorem handle_writes {s : Sys} {env : Env} {ev : ProcEvent} {st : Stamp} {t : Tid} {e : TaskEntry}
    (h : (s.handle env ev st).cache.tasks.lookup t = some e) :
    s.cache.tasks.lookup t = some e ∨ (Binds ev ∧ t = ev.tid ∧ e.pid = ev.pid ∧ s.live t = true) := by
  have hc := eventDispatch_case (env.over s.live) ev s.cfg s.cache s.applied
  change (eventDispatch (env.over s.live) ev s.cfg s.cache s.applied).1.tasks.lookup t = some e at h
  generalize eventDispatch (env.over s.live) ev s.cfg s.cache s.applied = out at hc h
  have herase : ∀ {m : KeyMap Tid TaskEntry} {u : Tid}, (m.erase u).lookup t = some e → m.lookup t = some e := by
    intro m u hm
    rw [KeyMap.lookup_erase] at hm
    split_ifs at hm
    exact hm
  cases hc with
  | exit =>
      rw [ProcCache.taskDel_tasks] at h
      refine Or.inl (herase (u := ev.tid) ?_)
      split_ifs at h
      · exact h
      · exact h
  | dropped =>
      rw [ProcCache.taskDel_tasks] at h
      exact Or.inl (herase h)
  | unresolved => exact Or.inl h
  | applied hb hr ht hp hc =>
      rcases applyCase_over hc with ⟨-, ho⟩ | ⟨-, ⟨-, ho⟩ | ⟨r, w, hl, ho⟩⟩
      · rw [ho, ht] at h
        exact Or.inl h
      · rw [ho] at h
        rw [← ht]
        exact Or.inl (herase h)
      · rw [ho] at h
        rw [KeyMap.lookup_insert] at h
        split_ifs at h with htid
        · obtain rfl := Option.some.inj h
          subst htid
          exact Or.inr ⟨hb, rfl, rfl, hl⟩
        · rw [← ht]
          exact Or.inl (herase h)
  | ignored => exact Or.inl h

/-- **Whom events name**: an event is right exactly when its action stays within its own group
and thread; and along runs in which only such events are reported, and those that can bind are
handled while their thread is the one they name or none, such an event names the group of its
live thread, and every binding it writes is of that thread under that group. -/
theorem attribution (L : Layout) :
    (∀ (s s' : Sys) (a : KernelAction) (ev : ProcEvent) (st : Stamp), s.kernelStep L a = some s' →
      s'.queue = s.queue ++ [(ev, st)] → (RightEvent s s' a ev ↔ a.OwnGroup)) ∧
    ∀ (s s' : Sys) (env : Env), Runs.Reachable (step L) (AttributionOk L) Init s →
      AttributionOk L s (.dispatch env) → step L s (.dispatch env) = some s' →
      ∃ ev st q, s.queue = (ev, st) :: q ∧
        (Binds ev → ∀ x, s.threads.lookup ev.tid = some x → ev.pid = x.tgid) ∧
        ∀ t e, s'.cache.tasks.lookup t = some e → s.cache.tasks.lookup t = some e ∨
          (t = ev.tid ∧ e.pid = ev.pid ∧ ∃ x, s.threads.lookup t = some x ∧ e.pid = x.tgid) := by
  refine ⟨fun s s' a ev st hs hq => event_right_iff (kernelStep_case hs) hq, fun s s' env hr hok hs => ?_⟩
  have hinv : s.WellFormed ∧ s.QueueRight := by
    refine hr.invariant (I := fun s => s.WellFormed ∧ s.QueueRight) (fun s₀ h₀ => ⟨h₀.wf, fun e he => ?_⟩)
      fun s a s' hI hk hs => ⟨hI.1.step hs, hI.2.step hI.1 hk hs⟩
    rw [h₀.queue] at he
    exact absurd he List.not_mem_nil
  cases step_case hs with
  | @dispatch _ ev st q ht hq =>
      have hpid : Binds ev → ∀ x, s.threads.lookup ev.tid = some x → ev.pid = x.tgid := fun hb x hx =>
        hinv.2 (ev, st) (by rw [hq]; exact List.mem_cons_self) x hx (hok ev st q hq hb x hx)
      refine ⟨ev, st, q, hq, hpid, fun t e he => ?_⟩
      rcases handle_writes he with hold | ⟨hb, rfl, hp, hl⟩
      · exact Or.inl hold
      · obtain ⟨x, hx⟩ := KeyMap.mem_iff_lookup.mp (live_iff.mp hl)
        exact Or.inr ⟨rfl, hp, x, hx, hp.trans (hpid hb x hx)⟩

/-- The process 200, created by 100, is filed under its parent. -/
theorem spawned_under_parent :
    ∃ s, Runs.run (step someLayout) (oneProcess "com.a".toList)
        [.kernel (.spawn 100 200), .dispatch allAlive] = some s ∧
      ∃ e x, s.cache.tasks.lookup 200 = some e ∧ s.threads.lookup 200 = some x ∧ e.pid ≠ x.tgid := by
  obtain ⟨s, hs, hp⟩ := Runs.exists_run (step someLayout) (oneProcess "com.a".toList)
    [.kernel (.spawn 100 200), .dispatch allAlive]
    (fun s => (s.cache.tasks.lookup 200).any (fun e => (s.threads.lookup 200).any (fun x => e.pid != x.tgid)))
    (by decide)
  obtain ⟨e, he, hx⟩ := (Option.any_eq_true _ _).mp hp
  obtain ⟨x, hx, hne⟩ := (Option.any_eq_true _ _).mp hx
  exact ⟨s, hs, e, x, he, hx, bne_iff_ne.mp hne⟩

/-- The main thread's own rename is reported and handled under its group. -/
theorem attribution_renamed :
    ∃ s s' ev st, (oneProcess "zygote".toList).kernelStep someLayout (.rename 100 100 (Comm.ofText "com.a".toList)) =
        some s ∧ step someLayout s (.dispatch allAlive) = some s' ∧ s.queue = [(ev, st)] ∧
      (RightEvent (oneProcess "zygote".toList) s (.rename 100 100 (Comm.ofText "com.a".toList)) ev ↔
        (KernelAction.rename 100 100 (Comm.ofText "com.a".toList)).OwnGroup) ∧
      ∃ ev st q, s.queue = (ev, st) :: q ∧
        (Binds ev → ∀ x, s.threads.lookup ev.tid = some x → ev.pid = x.tgid) ∧
        ∀ t e, s'.cache.tasks.lookup t = some e → s.cache.tasks.lookup t = some e ∨
          (t = ev.tid ∧ e.pid = ev.pid ∧ ∃ x, s.threads.lookup t = some x ∧ e.pid = x.tgid) := by
  obtain ⟨s, hs, hp⟩ := (Option.any_eq_true (fun s => s.queue.length == 1 &&
      s.queue.all (fun e => (s.threads.lookup e.1.tid).all (fun x => x.born == e.2.born)) &&
      (step someLayout s (.dispatch allAlive)).isSome)
    ((oneProcess "zygote".toList).kernelStep someLayout (.rename 100 100 (Comm.ofText "com.a".toList)))).mp (by decide)
  rw [Bool.and_eq_true, Bool.and_eq_true, beq_iff_eq, List.length_eq_one_iff, List.all_eq_true] at hp
  obtain ⟨⟨⟨⟨ev, st⟩, hq⟩, hborn⟩, hstep⟩ := hp
  obtain ⟨s', hs'⟩ := Option.isSome_iff_exists.mp hstep
  refine ⟨s, s', ev, st, hs, hs', hq, (attribution someLayout).1 _ s _ ev st hs hq,
    (attribution someLayout).2 s s' allAlive ⟨_, oneProcess_init "zygote".toList,
      Runs.Steps.single (a := .kernel (.rename 100 100 (Comm.ofText "com.a".toList))) (Or.inl rfl) hs⟩ ?_ hs'⟩
  intro ev' st' q' hq' _ x hx
  have hall := (Option.all_eq_true _ _).mp (hborn (ev', st') (by rw [hq']; exact List.mem_cons_self)) x hx
  exact beq_iff_eq.mp hall

end Sys

end AetherOptExt
