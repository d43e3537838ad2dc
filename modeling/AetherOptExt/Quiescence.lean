import AetherOptExt.System

/-! # The cache when no event is waiting

Is every live thread of a mapped process bound, under the thread rules its name matches, as
soon as the queue is empty?  Not every one: the hooks report only tracked threads and
whitelisted names, the daemon does not trust the name that a new thread has from its parent,
and a process may have been mapped to another package since.

What holds is about the last event of a thread (`quiescence`): if the thread has neither acted
with an effect nor exited since, and the event was handled under the package `p`, then at an
empty queue the thread is bound as the rules of `p` say.  Events of one thread are handled in
the order of their submission, so older ones, of earlier threads with the same id too, cannot
undo it. -/

namespace AetherOptExt

/-- The thread is created, acts, is renamed, or is the one whose id is taken over. -/
def KernelAction.Involves (t : Tid) : KernelAction → Prop
  | .clone _ c => c = t
  | .spawn _ c => c = t
  | .exec u => u = t
  | .takeover u g => u = t ∨ g = t
  | .rename a u _ => a = t ∨ u = t
  | .exit u => u = t

/-- The flag of a job is that of its package. -/
def Job.FlagRight (cfg : AppConfig) : Job → Prop
  | .bind _ pkg htr _ _ => htr = cfg.pkgHasThreadRules pkg
  | .record _ pkg htr _ => htr = cfg.pkgHasThreadRules pkg
  | _ => True

namespace Sys

/-! ### The flags of the mapped packages -/

/-- Every mapped package, and every one that a scan is about to map, carries its own flag. -/
structure FlagsRight (s : Sys) : Prop where
  mapped : ∀ q p, s.cache.pkgs.lookup q = some p → p.2 = s.cfg.pkgHasThreadRules p.1
  jobs : ∀ j ∈ s.todo, j.FlagRight s.cfg

theorem resolved_flag {pc : ProcCache} {cfg : AppConfig}
    (h : ∀ q p, pc.pkgs.lookup q = some p → p.2 = cfg.pkgHasThreadRules p.1) {ev : ProcEvent} {p : Str × Bool}
    (hr : resolved pc cfg ev = some p) : p.2 = cfg.pkgHasThreadRules p.1 := by
  unfold resolved at hr
  rcases Option.or_eq_some_iff.mp hr with hr | ⟨-, hr⟩
  · split_ifs at hr
    exact h _ p hr
  · obtain ⟨pkg, -, rfl⟩ := Option.map_eq_some_iff.mp hr
    rfl

/-- An event maps packages with their own flags only. -/
theorem dispatch_flag {env : Env} {ev : ProcEvent} {cfg : AppConfig} {pc : ProcCache} {applied : AppliedMap}
    {out : ProcCache × AppliedMap} (hc : DispatchCase env ev cfg pc applied out)
    (h : ∀ q p, pc.pkgs.lookup q = some p → p.2 = cfg.pkgHasThreadRules p.1) :
    ∀ q p, out.1.pkgs.lookup q = some p → p.2 = cfg.pkgHasThreadRules p.1 := by
  have herase : ∀ q p, (pc.pkgs.erase ev.pid).lookup q = some p → pc.pkgs.lookup q = some p := by
    intro q p hq
    rw [KeyMap.lookup_erase] at hq
    split_ifs at hq
    exact hq
  intro q p hq
  cases hc with
  | exit =>
      have hq' := ProcCache.taskDel_pkgs_lookup hq
      split_ifs at hq'
      · exact h q p (herase q p hq')
      · exact h q p hq'
  | dropped => exact h q p (herase q p (ProcCache.taskDel_pkgs_lookup hq))
  | unresolved => exact h q p hq
  | applied hb hr ht hp hc =>
      rw [ProcCache.taskApply_pkgs hc, hp q] at hq
      split_ifs at hq
      · obtain rfl := Option.some.inj hq
        exact resolved_flag h hr
      · exact h q p hq
  | ignored => exact h q p hq

theorem FlagsRight.job {s : Sys} (h : s.FlagsRight) {j : Job} {rest : List Job} (ht : s.todo = j :: rest) :
    ({ s with todo := rest }.runJob j).FlagsRight := by
  have hrest : ∀ i ∈ rest, i.FlagRight s.cfg := fun i hi => h.jobs i (by rw [ht]; exact List.mem_cons_of_mem j hi)
  have hj : j.FlagRight s.cfg := h.jobs j (by rw [ht]; exact List.mem_cons_self)
  cases j with
  | del t => exact ⟨h.mapped, hrest⟩
  | look r =>
      show ({ s with todo := rest }.lookAt r).FlagsRight
      rcases lookAt_case { s with todo := rest } r with he | ⟨k, t, -, hs, he⟩
      · rw [he]
        exact ⟨h.mapped, hrest⟩
      · rw [he]
        obtain ⟨pid, pkg, -, -, -, rfl⟩ := scanTarget_eq_some.mp hs
        refine ⟨h.mapped, fun i hi => ?_⟩
        rcases List.mem_append.mp hi with hi | hi
        · exact hrest i hi
        · rcases mem_targetJobs hi with ⟨x, rfl⟩ | rfl
          · exact rfl
          · exact rfl
  | bind pid pkg htr k x =>
      refine ⟨fun q p hq => h.mapped q p ?_, hrest⟩
      rw [runJob_bind_pkgs] at hq
      exact hq
  | record pid pkg htr k =>
      refine ⟨fun q p hq => ?_, hrest⟩
      change (s.cache.pkgs.insert pid (pkg, htr)).lookup q = some p at hq
      rw [KeyMap.lookup_insert] at hq
      split_ifs at hq
      · obtain rfl := Option.some.inj hq
        exact hj
      · exact h.mapped q p hq
  | probe t env =>
      show ({ s with todo := rest }.probe t env).FlagsRight
      rcases probe_case { s with todo := rest } t env with he | he
      · rw [he]
        exact ⟨h.mapped, hrest⟩
      · rw [he]
        exact ⟨h.mapped, hrest⟩
  | reap =>
      refine ⟨fun q p hq => h.mapped q p (ProcCache.foldl_taskDel_pkgs_lookup _ _ hq), fun i hi => ?_⟩
      rcases List.mem_append.mp hi with hi | hi
      · obtain ⟨t, -, rfl⟩ := List.mem_map.mp hi
        trivial
      · exact hrest i hi

theorem FlagsRight.step {L : Layout} {s s' : Sys} {a : Action} (h : s.FlagsRight) (hs : step L s a = some s') :
    s'.FlagsRight := by
  cases step_case hs with
  | kernel hk =>
      obtain ⟨hcache, hcfg, htodo, -⟩ := hk.daemon_frame
      refine ⟨?_, ?_⟩
      · rw [hcache, hcfg]
        exact h.mapped
      · rw [htodo, hcfg]
        exact h.jobs
  | dispatch ht hq => exact ⟨dispatch_flag (eventDispatch_case _ _ _ _ _) h.mapped, h.jobs⟩
  | scan ht =>
      refine ⟨fun q p hq => ?_, fun j hj => ?_⟩
      · cases hq
      · rcases List.mem_append.mp hj with hj | hj
        · obtain ⟨t, -, rfl⟩ := List.mem_map.mp hj
          trivial
        · obtain ⟨r, -, rfl⟩ := List.mem_map.mp hj
          trivial
  | sync ht =>
      refine ⟨h.mapped, fun j hj => ?_⟩
      rcases List.mem_append.mp hj with hj | hj
      · obtain ⟨t, -, rfl⟩ := List.mem_map.mp hj
        trivial
      · rw [List.mem_singleton.mp hj]
        trivial
  | job ht => exact h.job ht

theorem flagsRight_init {s : Sys} (h : s.Init) : s.FlagsRight := by
  refine ⟨fun q p hq => ?_, fun j hj => ?_⟩
  · rw [h.cache] at hq
    cases hq
  · rw [h.todo] at hj
    exact absurd hj List.not_mem_nil

/-! ### What an event leaves for its thread -/

/-- The thread has an entry when a rule decides, and one that a thread rule decides is recorded. -/
structure Entered (tasks : KeyMap Tid TaskEntry) (t : Tid) (b : Option (CpuSet × Bool)) : Prop where
  present : b.isSome = true → ∃ e, tasks.lookup t = some e
  ruled : ∀ cpus, b = some (cpus, true) → ∃ e, tasks.lookup t = some e ∧ e.isThreadRule = true ∧ e.cpus = cpus

theorem Entered.congr {tasks tasks' : KeyMap Tid TaskEntry} {t : Tid} {b : Option (CpuSet × Bool)}
    (h : Entered tasks t b) (he : tasks'.lookup t = tasks.lookup t) : Entered tasks' t b := by
  refine ⟨?_, ?_⟩
  · rw [he]
    exact h.present
  · rw [he]
    exact h.ruled

/-- Handling an event of a live thread under the package `p` enters the thread. -/
theorem dispatch_entered {env : Env} {live : Tid → Bool} {ev : ProcEvent} {cfg : AppConfig} {pc : ProcCache}
    {applied : AppliedMap} {out : ProcCache × AppliedMap} {p : Str × Bool}
    (hc : DispatchCase (env.over live) ev cfg pc applied out) (hb : Binds ev) (hr : resolved pc cfg ev = some p)
    (hl : live ev.tid = true) :
    Entered out.1.tasks ev.tid (binding cfg cfg.topo p.1 (eventName ev p)) := by
  cases hc with
  | exit he => exact absurd he hb.ne_exit
  | dropped he hn =>
      rw [hn] at hr
      cases hr
  | unresolved he hn =>
      rw [hn] at hr
      cases hr
  | @applied p' pc₁ _ _ hr' htasks _ hc =>
      obtain rfl := Option.some.inj (hr'.symm.trans hr)
      cases hc with
      | unruled ha =>
          have hnone : binding cfg cfg.topo p'.1 (eventName ev p') = none := by
            rw [← threadAffinity_binding (env.over live).createDir, ha]
            rfl
          rw [hnone]
          exact ⟨fun h => absurd h Bool.false_ne_true, fun cpus h => by cases h⟩
      | @kept r ha hk =>
          obtain ⟨e, he, -, hf⟩ := ProcCache.keeps_mem hk
          rw [binding_of_threadAffinity ha]
          refine ⟨fun _ => ⟨e, he⟩, fun cpus h => ?_⟩
          have hflag : r.isThreadRule = true := congrArg Prod.snd (Option.some.inj h)
          rw [hf] at hflag
          cases hflag
      | gone ha hk hd =>
          rw [eventAffinityApply_fst, affinitySet_over, hl] at hd
          cases hd
      | @bound r ha hk hd =>
          have he : ((pc₁.tasks.erase ev.tid).insert ev.tid (ProcCache.entryOf ev.pid r)).lookup ev.tid =
              some (ProcCache.entryOf ev.pid r) := AList.lookup_insert _
          rw [binding_of_threadAffinity ha]
          refine ⟨fun _ => ⟨_, he⟩, fun cpus h => ⟨_, he, ?_⟩⟩
          obtain ⟨hcpus, hflag⟩ := Prod.mk.inj (Option.some.inj h)
          exact ⟨hflag, hcpus⟩
  | ignored _ hn => exact absurd hb hn

/-! ### The last event of a thread -/

/-- A step after the last event of a thread: what involves the thread has no effect, and the event,
with no other one of its thread behind it, is handled under the package `p`. -/
def Undisturbed (L : Layout) (ev : ProcEvent) (st : Stamp) (p : Str × Bool) (s : Sys) : Action → Prop
  | .kernel a => a.Involves ev.tid → ∀ s', s.kernelStep L a = some s' → s' = s
  | .dispatch _ => ∀ q, s.queue = (ev, st) :: q → (∀ e ∈ q, e.1.tid ≠ ev.tid) → resolved s.cache s.cfg ev = some p
  | _ => False

/-- An action that does not involve a thread leaves it as it is and submits no event of it. -/
theorem KernelCase.bystander {s s' : Sys} {a : KernelAction} (h : KernelCase s a s') {t : Tid}
    (ha : ¬ a.Involves t) :
    s'.threads.lookup t = s.threads.lookup t ∧ ∃ new, s'.queue = s.queue ++ new ∧ ∀ e ∈ new, e.1.tid ≠ t := by
  have hnew : ∀ {P : Prop} [Decidable P] {ev : ProcEvent} {st : Stamp}, ev.tid ≠ t →
      ∀ e ∈ (if P then [(ev, st)] else []), e.1.tid ≠ t := by
    intro P _ ev st hne e he
    split_ifs at he
    · rw [List.mem_singleton.mp he]
      exact hne
    · exact absurd he List.not_mem_nil
  cases h with
  | @clone u c p hu hc => exact ⟨(lookup_forked t).trans (if_neg (Ne.symm ha)), _, rfl, hnew ha⟩
  | @spawn u c p hu hc => exact ⟨(lookup_forked t).trans (if_neg (Ne.symm ha)), _, rfl, hnew ha⟩
  | @exec u x hu hl ho => exact ⟨rfl, _, rfl, hnew ha⟩
  | @takeover u g x hu hl hg ho =>
      obtain ⟨hut, hgt⟩ := not_or.mp ha
      refine ⟨?_, [], (List.append_nil _).symm, fun e he => absurd he List.not_mem_nil⟩
      rw [lookup_takenOver, if_neg (Ne.symm hgt), if_neg (Ne.symm hut)]
  | @rename b u comm p x hb hu hg =>
      obtain ⟨hbt, hut⟩ := not_or.mp ha
      exact ⟨(KeyMap.lookup_insert s.threads u t _).trans (if_neg (Ne.symm hut)), _, rfl, hnew hbt⟩
  | @exit u x hu => exact ⟨(KeyMap.lookup_erase s.threads u t).trans (if_neg (Ne.symm ha)), _, rfl, hnew ha⟩

/-- The event waits as the last one of its live thread `x`, or it has been handled. -/
structure Awaited (s : Sys) (ev : ProcEvent) (st : Stamp) (p : Str × Bool) (x : Option Thread) : Prop where
  thread : s.threads.lookup ev.tid = x
  flags : s.FlagsRight
  state : (∃ pre post, s.queue = pre ++ (ev, st) :: post ∧ ∀ e ∈ post, e.1.tid ≠ ev.tid) ∨
    ((∀ e ∈ s.queue, e.1.tid ≠ ev.tid) ∧ p.2 = s.cfg.pkgHasThreadRules p.1 ∧
      Entered s.cache.tasks ev.tid (binding s.cfg s.cfg.topo p.1 (eventName ev p)))

theorem Awaited.kernel {L : Layout} {s s' : Sys} {ev : ProcEvent} {st : Stamp} {p : Str × Bool} {x : Option Thread}
    {a : KernelAction} (h : s.Awaited ev st p x) (hok : Undisturbed L ev st p s (.kernel a))
    (hs : s.kernelStep L a = some s') : s'.Awaited ev st p x := by
  by_cases ha : a.Involves ev.tid
  · rw [hok ha s' hs]
    exact h
  · have hk := kernelStep_case hs
    obtain ⟨hthread, new, hqueue, hnew⟩ := hk.bystander ha
    obtain ⟨hcache, hcfg, -, -⟩ := hk.daemon_frame
    refine ⟨hthread.trans h.thread, h.flags.step (a := .kernel a) hs, ?_⟩
    rcases h.state with ⟨pre, post, hq, hpost⟩ | ⟨hq, hflag, hent⟩
    · refine Or.inl ⟨pre, post ++ new, ?_, fun e he => ?_⟩
      · rw [hqueue, hq, List.append_assoc, List.cons_append]
      · exact (List.mem_append.mp he).elim (hpost e) (hnew e)
    · rw [hcache, hcfg]
      refine Or.inr ⟨fun e he => ?_, hflag, hent⟩
      rw [hqueue] at he
      exact (List.mem_append.mp he).elim (hq e) (hnew e)

theorem Awaited.dispatch {L : Layout} {s : Sys} {ev ev' : ProcEvent} {st st' : Stamp} {p : Str × Bool} {x : Thread}
    {env : Env} {q : List (ProcEvent × Stamp)} (h : s.Awaited ev st p (some x)) (hb : Binds ev)
    (hok : Undisturbed L ev st p s (.dispatch env)) (hq : s.queue = (ev', st') :: q)
    (hflags : ({ s with queue := q }.handle env ev' st').FlagsRight) :
    ({ s with queue := q }.handle env ev' st').Awaited ev st p (some x) := by
  have hc := eventDispatch_case (env.over s.live) ev' s.cfg s.cache s.applied
  refine ⟨h.thread, hflags, ?_⟩
  rcases h.state with ⟨pre, post, hsplit, hpost⟩ | ⟨hnone, hflag, hent⟩
  · rw [hq] at hsplit
    cases pre with
    | nil =>
        -- the event itself is handled, while its thread is live
        obtain ⟨he, rfl⟩ := List.cons.inj hsplit
        obtain ⟨rfl, rfl⟩ := Prod.mk.inj he
        have hr := hok q hq hpost
        have hl : s.live ev'.tid = true := by
          unfold live
          rw [h.thread]
          rfl
        exact Or.inr ⟨hpost, resolved_flag h.flags.mapped hr, dispatch_entered hc hb hr hl⟩
    | cons e pre =>
        obtain ⟨-, hrest⟩ := List.cons.inj hsplit
        exact Or.inl ⟨pre, post, hrest, hpost⟩
  · -- another thread's event
    have hne : ev'.tid ≠ ev.tid := hnone (ev', st') (by rw [hq]; exact List.mem_cons_self)
    refine Or.inr ⟨fun e he => hnone e ?_, hflag, hent.congr (dispatch_tasks_ne hc hne)⟩
    rw [hq]
    exact List.mem_cons_of_mem _ he

theorem Awaited.step {L : Layout} {s s' : Sys} {ev : ProcEvent} {st : Stamp} {p : Str × Bool} {x : Thread}
    {a : Action} (hb : Binds ev) (h : s.Awaited ev st p (some x)) (hok : Undisturbed L ev st p s a)
    (hs : step L s a = some s') : s'.Awaited ev st p (some x) := by
  have hflags := h.flags.step hs
  cases a with
  | kernel a => exact h.kernel hok hs
  | dispatch env =>
      cases step_case hs with
      | dispatch ht hq => exact h.dispatch hb hok hq hflags
  | scan cfg target dir => exact absurd hok id
  | sync env => exact absurd hok id
  | job => exact absurd hok id

/-- A thread that acts upon itself and is there afterwards has reported its own name. -/
theorem KernelCase.own_report {s s' : Sys} {a : KernelAction} (h : KernelCase s a s') (ha : a.OwnGroup)
    {ev : ProcEvent} {st : Stamp} (hq : s'.queue = s.queue ++ [(ev, st)]) {x : Thread}
    (hx : s'.threads.lookup ev.tid = some x) : Binds ev ∧ ev.comm = x.comm := by
  cases h with
  | @clone u c p hu hc =>
      obtain ⟨rfl, -⟩ := Prod.mk.inj (report_eq hq).2
      obtain rfl := Option.some.inj (((lookup_forked c).trans (if_pos rfl)).symm.trans hx)
      exact ⟨Or.inr (Or.inl rfl), rfl⟩
  | spawn => exact absurd ha id
  | @takeover t g y ht hl hg ho => exact absurd hq (takenOver_queue_ne s t g y (ev, st))
  | @exec t y ht hl ho =>
      obtain ⟨rfl, -⟩ := Prod.mk.inj (report_eq hq).2
      obtain rfl := Option.some.inj (ht.symm.trans hx)
      exact ⟨Or.inl rfl, rfl⟩
  | @rename b t comm p y hb ht hg =>
      obtain ⟨rfl, -⟩ := Prod.mk.inj (report_eq hq).2
      obtain rfl : b = t := ha
      change (s.threads.insert b { y with comm := comm }).lookup b = some x at hx
      rw [KeyMap.lookup_insert, if_pos rfl] at hx
      obtain rfl := Option.some.inj hx
      exact ⟨Or.inr (Or.inr rfl), rfl⟩
  | @exit t y ht =>
      obtain ⟨rfl, -⟩ := Prod.mk.inj (report_eq hq).2
      change (s.threads.erase t).lookup t = some x at hx
      rw [KeyMap.lookup_erase, if_pos rfl] at hx
      cases hx

/-- The thread's entry, and the thread rules of `pkg` that match `name`, in the state `s`. -/
def BoundAs (s : Sys) (t : Tid) (name pkg : Str) : Prop :=
  ∃ e, s.cache.tasks.lookup t = some e ∧
    ((∃ r ∈ threadRules s.cfg.rules pkg name, fromRange r.cpus ≠ CpuSet.new) →
      e.isThreadRule = true ∧ e.cpus = unionCpus (threadRules s.cfg.rules pkg name))

instance (s : Sys) (t : Tid) (name pkg : Str) : Decidable (s.BoundAs t name pkg) :=
  decidable_of_iff ((s.cache.tasks.lookup t).any (fun e =>
      decide ((∃ r ∈ threadRules s.cfg.rules pkg name, fromRange r.cpus ≠ CpuSet.new) →
        e.isThreadRule = true ∧ e.cpus = unionCpus (threadRules s.cfg.rules pkg name))) = true)
    ((Option.any_eq_true _ _).trans (exists_congr fun _ => and_congr_right fun _ => decide_eq_true_iff))

/-- Every live thread of a mapped process is bound as its name and the package say. -/
def AllBound (s : Sys) : Prop :=
  ∀ t x p, s.threads.lookup t = some x → s.cache.pkgs.lookup x.tgid = some p → s.BoundAs t (commStr x.comm) p.1

/-- **The last event of a thread decides**: in every run, once the queue is empty, a live thread
whose last effective action was reported is bound as the package says that the report was handled
under, when a rule of it decides for the name the report is matched under; a report other than of
a creation is matched under the thread's own name, and a thread rule that matches it decides. -/
theorem quiescence (L : Layout) (s₀ s₁ s : Sys) (a : KernelAction) (ev : ProcEvent) (st : Stamp) (p : Str × Bool)
    (x : Thread) (h₀ : Runs.Reachable (step L) (fun _ _ => True) Init s₀) (ha : a.OwnGroup)
    (hs : s₀.kernelStep L a = some s₁) (hq : s₁.queue = s₀.queue ++ [(ev, st)])
    (hr : Runs.Steps (step L) (Undisturbed L ev st p) s₁ s) (hempty : s.queue = [])
    (hx : s.threads.lookup ev.tid = some x) :
    ((binding s.cfg s.cfg.topo p.1 (eventName ev p)).isSome = true → ev.tid ∈ s.cache.tasks) ∧
    (trusts ev = true → p.1 ≠ [] →
      (∃ r ∈ threadRules s.cfg.rules p.1 (commStr x.comm), fromRange r.cpus ≠ CpuSet.new) →
      s.BoundAs ev.tid (commStr x.comm) p.1) := by
  have hflags : s₀.FlagsRight :=
    h₀.invariant (fun s h => flagsRight_init h) fun s a s' hI _ hs => hI.step hs
  -- the thread is there all the time, so it has not just exited
  have hthread : s₁.threads.lookup ev.tid = some x := by
    rw [← hx]
    symm
    refine hr.invariant (I := fun s => s.threads.lookup ev.tid = s₁.threads.lookup ev.tid) (fun s a s' hI hok hs => ?_) rfl
    by_cases hk : ∀ k, a ≠ .kernel k
    · rw [((step_case hs).kernel_frame hk).1]
      exact hI
    · push Not at hk
      obtain ⟨k, rfl⟩ := hk
      by_cases hi : k.Involves ev.tid
      · rw [hok hi s' hs]
        exact hI
      · exact ((kernelStep_case hs).bystander hi).1.trans hI
  obtain ⟨hb, hcomm⟩ := (kernelStep_case hs).own_report ha hq hthread
  have hinv : s.Awaited ev st p (some x) := by
    refine hr.invariant (I := fun s => s.Awaited ev st p (some x)) (fun s a s' hI hok hs => hI.step hb hok hs) ?_
    exact ⟨hthread, hflags.step (a := .kernel a) hs, Or.inl ⟨s₀.queue, [], hq, fun e he => absurd he List.not_mem_nil⟩⟩
  rcases hinv.state with ⟨pre, post, hsplit, -⟩ | ⟨-, hflag, hent⟩
  · rw [hempty] at hsplit
    exact absurd hsplit.symm (List.append_ne_nil_of_right_ne_nil pre (List.cons_ne_nil _ post))
  refine ⟨fun hsome => ?_, fun htrust hne hrule => ?_⟩
  · obtain ⟨e, he⟩ := hent.present hsome
    exact KeyMap.mem_of_lookup he
  · obtain ⟨r, hr, hcpus⟩ := hrule
    -- the package has thread rules, so the name is passed on
    have hpkg : p.2 = true := by
      rw [hflag]
      have hr' := List.mem_filter.mp hr
      simp only [Bool.and_eq_true, beq_iff_eq] at hr'
      obtain ⟨hmem, ⟨⟨hpk, hth⟩, -⟩, -⟩ := hr'
      refine List.any_eq_true.mpr ⟨r, hmem, ?_⟩
      rw [hth, hpk, fnmatch_self hne]
      rfl
    have hname : eventName ev p = commStr x.comm := by
      unfold eventName ProcCache.threadName
      rw [hpkg, htrust, hcomm]
      rfl
    rw [hname] at hent
    obtain ⟨e, he, hf, hu⟩ := hent.ruled _ (binding_of_thread_rule hr hcpus)
    exact ⟨e, he, fun _ => ⟨hf, hu⟩⟩

/-! ### Runs that end with a thread bound otherwise -/

/-- The run ends with an empty queue, and there `t` is not bound as `AllBound` asks. -/
def endsUnbound (name : String) (as : List Action) (t : Tid) : Bool :=
  (Runs.run (step someLayout) (appProcess name.toList) as).any (fun s =>
    s.queue.isEmpty && (s.threads.lookup t).any (fun x => (s.cache.pkgs.lookup x.tgid).any (fun p =>
      !decide (s.BoundAs t (commStr x.comm) p.1))))

theorem not_allBound {name : String} {as : List Action} (t : Tid) (h : endsUnbound name as t = true) :
    ∃ s, Runs.run (step someLayout) (appProcess name.toList) as = some s ∧ s.queue = [] ∧ ¬ s.AllBound := by
  obtain ⟨s, hs, hp⟩ := (Option.any_eq_true _ _).mp h
  rw [Bool.and_eq_true, List.isEmpty_iff, Option.any_eq_true] at hp
  obtain ⟨hq, x, hx, hp⟩ := hp
  obtain ⟨p, hp, hb⟩ := (Option.any_eq_true _ _).mp hp
  refine ⟨s, hs, hq, fun hall => ?_⟩
  rw [Bool.not_eq_true', decide_eq_false_iff_not] at hb
  exact hb (hall t x p hx hp)

/-- Runs that end with an empty queue and a thread that is not bound as asked: a thread created
before its process has the name of an app; a worker renamed before its creation is handled; a
worker that keeps its parent's name; a process mapped to another package since; a package
without rules; and the package with the empty name. -/
theorem quiescent_unbound :
    (∃ s, Runs.run (step someLayout) (appProcess "zygote".toList)
        [clones 100 101, renames 100 "com.a", .dispatch allAlive] = some s ∧ s.queue = [] ∧ ¬ s.AllBound) ∧
    (∃ s, Runs.run (step someLayout) (appProcess "com.a".toList)
        [clones 100 101, renames 101 "Render", .dispatch allAlive] = some s ∧ s.queue = [] ∧ ¬ s.AllBound) ∧
    (∃ s, Runs.run (step someLayout) (appProcess "com.a".toList)
        [clones 100 101, .dispatch allAlive] = some s ∧ s.queue = [] ∧ ¬ s.AllBound) ∧
    (∃ s, Runs.run (step someLayout) (appProcess "zygote".toList)
        [renames 100 "com.a", .dispatch allAlive, clones 100 101, clones 100 102, renames 101 "Render",
          .kernel (.exit 100), .dispatch allAlive, .dispatch allAlive, .dispatch allAlive, .dispatch allAlive,
          renames 102 "com.b", .dispatch allAlive] = some s ∧ s.queue = [] ∧ ¬ s.AllBound) ∧
    (∃ s, Runs.run (step someLayout) (appProcess "zygote".toList)
        [renames 100 "com.c", .dispatch allAlive] = some s ∧ s.queue = [] ∧ ¬ s.AllBound) ∧
    ∃ s, Runs.run (step someLayout) (appProcess "zygote".toList)
        [renames 100 "com.a", .dispatch allAlive, clones 100 101, .kernel (.exit 100), .dispatch allAlive,
          .dispatch allAlive, renames 101 "", renames 101 "Render", .dispatch allAlive, .dispatch allAlive] = some s ∧
        s.queue = [] ∧ ¬ s.AllBound :=
  ⟨not_allBound 101 (by decide), not_allBound 101 (by decide), not_allBound 101 (by decide),
    not_allBound 101 (by decide), not_allBound 100 (by decide), not_allBound 101 (by decide)⟩

/-- The worker 101 takes the name `Render`. -/
def workerRenamed : ProcEvent := ⟨100, 101, Comm.ofText "Render".toList, eventRename⟩

/-- A worker's own rename is handled under its package. -/
theorem quiescence_renamed :
    ∃ s₀ s₁ s x, Runs.run (step someLayout) (appProcess "zygote".toList)
        [renames 100 "com.a", .dispatch allAlive, clones 100 101, .dispatch allAlive] = some s₀ ∧
      s₀.kernelStep someLayout (.rename 101 101 (Comm.ofText "Render".toList)) = some s₁ ∧
      step someLayout s₁ (.dispatch allAlive) = some s ∧ s.threads.lookup 101 = some x ∧
      commStr x.comm = "Render".toList ∧ 101 ∈ s.cache.tasks ∧ s.BoundAs 101 (commStr x.comm) "com.a".toList := by
  obtain ⟨s₀, h₀, hp⟩ := Runs.exists_run (step someLayout) (appProcess "zygote".toList)
    [renames 100 "com.a", .dispatch allAlive, clones 100 101, .dispatch allAlive]
    (fun s₀ : Sys => (s₀.kernelStep someLayout (.rename 101 101 (Comm.ofText "Render".toList))).any (fun s₁ : Sys =>
      decide (s₁.queue = s₀.queue ++ [(workerRenamed, ⟨0, 1⟩)]) &&
        decide (resolved s₁.cache s₁.cfg workerRenamed = some ("com.a".toList, true)) &&
        (step someLayout s₁ (.dispatch allAlive)).any (fun s : Sys =>
          decide (s.queue = []) && (s.threads.lookup 101).any (fun x => decide (commStr x.comm = "Render".toList)) &&
            (binding s.cfg s.cfg.topo "com.a".toList (eventName workerRenamed ("com.a".toList, true))).isSome &&
            (threadRules s.cfg.rules "com.a".toList "Render".toList).any (fun r =>
              decide (fromRange r.cpus ≠ CpuSet.new))))) (by decide)
  obtain ⟨s₁, h₁, hp⟩ := (Option.any_eq_true _ _).mp hp
  rw [Bool.and_eq_true, Bool.and_eq_true, decide_eq_true_eq, decide_eq_true_eq, Option.any_eq_true] at hp
  obtain ⟨⟨hq, hres⟩, s, hs, hp⟩ := hp
  rw [Bool.and_eq_true, Bool.and_eq_true, Bool.and_eq_true, decide_eq_true_eq, Option.any_eq_true,
    List.any_eq_true] at hp
  obtain ⟨⟨⟨hempty, x, hx, hname⟩, hsome⟩, r, hr, hcpus⟩ := hp
  have hname := of_decide_eq_true hname
  obtain ⟨hin, hbound⟩ := quiescence someLayout s₀ s₁ s (.rename 101 101 (Comm.ofText "Render".toList)) workerRenamed ⟨0, 1⟩
    ("com.a".toList, true) x
    ⟨_, appProcess_init "zygote".toList, Runs.steps_of_run (fun _ _ _ => trivial) h₀⟩ rfl h₁ hq
    (Runs.Steps.single (a := .dispatch allAlive) (fun _ _ _ => hres) hs) hempty hx
  refine ⟨s₀, s₁, s, x, h₀, h₁, hs, hx, hname, hin hsome, hbound rfl (by decide) ⟨r, ?_, of_decide_eq_true hcpus⟩⟩
  rw [hname]
  exact hr

end Sys

end AetherOptExt
