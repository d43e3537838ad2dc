import AetherOptExt.ScanEnforces

/-! # What an event puts in force

An event concerns one thread.  `fate` says, from the rules, the cache and the event, what becomes of
it: it is left alone, it has no entry any more, or it is bound to CPUs.  In every reachable state this
is what `event_dispatch` does to the cache and to the mask of the thread, and it does nothing to the
other threads (`Placed.event_enforces`). -/

namespace AetherOptExt

open CpuSet ProcCache Placement

/-! ### What is to become of a thread -/

inductive Fate where
  | untouched
  | forgotten
  | bound (cpus : CpuSet) (isThreadRule : Bool)
deriving DecidableEq

/-- What an answer of the rules makes of a thread.  The package's rules do not replace a binding that
a thread rule has made. -/
def answerFate (answer : Option (CpuSet × Bool)) (old : Option TaskEntry) (live : Bool) : Fate :=
  match answer with
  | none => .untouched
  | some (cpus, isThreadRule) =>
      if !isThreadRule && old.any (fun e => e.isThreadRule) then .untouched
      else if live then .bound cpus isThreadRule
      else .forgotten

/-- What an event makes of its thread. -/
def fate (cfg : AppConfig) (pc : ProcCache) (w : Placement) (ev : ProcEvent) : Fate :=
  if ev.eventType = eventExit then .forgotten
  else if Binds ev then
    match resolved pc cfg ev with
    | none => if ev.eventType = eventExec then .forgotten else .untouched
    | some p => answerFate (binding cfg cfg.topo p.1 (eventName ev p)) (pc.tasks.lookup ev.tid) (w.live ev.tid)
  else .untouched

section

variable (allow : Tid → Str → Bool) (topo : CpuTopology) (u pid : Tid) (old : Option TaskEntry)
  (x : Option Standing) (pc : ProcCache) (w : Placement)

/-- The thread, which had this entry and stood so, has met its fate. -/
def Fate.Met : Fate → Prop
  | .untouched => pc.tasks.lookup u = old ∧ w.threads.lookup u = x
  | .forgotten => u ∉ pc.tasks ∧ w.threads.lookup u = x
  | .bound cpus isThreadRule => Stands allow topo pid cpus isThreadRule u pc w

end

/-! ### One thread -/

section

variable (fs : FsAnswers) (allow : Tid → Str → Bool) {cfg : AppConfig} {pc : ProcCache} {s : AppliedMap × Placement}
  {tid pid : Tid} {pkg comm : Str} {htr trust : Bool} {r : AffinityResult}

/-- A thread rule's binding is kept. -/
theorem kept_taskApplyIn
    (hr : threadAffinity (answers fs s.2.tree) pkg (threadName htr trust comm) cfg cfg.topo = some r)
    (hk : pc.keeps tid r = true) :
    (taskApplyIn fs allow pc tid pid pkg comm htr cfg trust s).2.1.tasks.lookup tid = pc.tasks.lookup tid ∧
      (taskApplyIn fs allow pc tid pid pkg comm htr cfg trust s).2.2.2.threads.lookup tid =
        s.2.threads.lookup tid := by
  unfold taskApplyIn taskApply
  simp only [hr, hk, if_true, and_self]

/-- A thread that has exited loses its entry, and is not given life. -/
theorem forgotten_taskApplyIn
    (hr : threadAffinity (answers fs s.2.tree) pkg (threadName htr trust comm) cfg cfg.topo = some r)
    (hk : pc.keeps tid r = false) (hdead : tid ∉ s.2.threads) :
    tid ∉ (taskApplyIn fs allow pc tid pid pkg comm htr cfg trust s).2.1.tasks ∧
      (taskApplyIn fs allow pc tid pid pkg comm htr cfg trust s).2.2.2.threads.lookup tid =
        s.2.threads.lookup tid := by
  have hcase := @taskApplyIn_case fs allow cfg pc s tid pid pkg comm htr trust
  rw [hr] at hcase
  generalize (taskApplyIn fs allow pc tid pid pkg comm htr cfg trust s).2.1 = pc',
    (taskApplyIn fs allow pc tid pid pkg comm htr cfg trust s).2.2.2 = w' at hcase ⊢
  cases hcase with
  | unruled h => cases h
  | kept h hkept =>
      obtain rfl := Option.some.inj h
      rw [hk] at hkept
      cases hkept
  | gone h _ _ htree htasks hthreads =>
      exact ⟨AList.lookup_eq_none.mp ((htasks tid).trans (if_pos rfl)), hthreads tid⟩
  | bound h _ hlive => exact absurd hlive hdead

/-- `task_apply` makes of its thread what the answer says. -/
theorem met_taskApplyIn (hm : cfg.topo.memsStr ≠ [])
    (hrules : RulesReady cfg.topo cfg.rules s.2.tree) (hbase : BaseReady cfg.topo s.2.tree) :
    (answerFate (binding cfg cfg.topo pkg (threadName htr trust comm)) (pc.tasks.lookup tid) (s.2.live tid)).Met allow
      cfg.topo tid pid (pc.tasks.lookup tid) (s.2.threads.lookup tid)
      (taskApplyIn fs allow pc tid pid pkg comm htr cfg trust s).2.1
      (taskApplyIn fs allow pc tid pid pkg comm htr cfg trust s).2.2.2 := by
  have hanswer := threadAffinity_binding (answers fs s.2.tree) pkg (threadName htr trust comm) cfg cfg.topo
  cases hb : binding cfg cfg.topo pkg (threadName htr trust comm) with
  | none => exact taskApplyIn_frame fs allow fun _ => hb
  | some b =>
      obtain ⟨cpus, isThreadRule⟩ := b
      rw [hb] at hanswer
      obtain ⟨r, hr, hrb⟩ := Option.map_eq_some_iff.mp hanswer
      obtain ⟨hc, hflag⟩ := Prod.mk.inj hrb
      have hkeeps : pc.keeps tid r = (!isThreadRule && (pc.tasks.lookup tid).any fun e => e.isThreadRule) := by
        unfold keeps
        rw [hflag]
      unfold answerFate
      dsimp only
      rw [← hkeeps]
      split_ifs with hk hlive
      · exact kept_taskApplyIn fs allow hr hk
      · refine stands_taskApplyIn fs allow hm hrules hbase (of_decide_eq_true hlive) (fun e he hold => ?_) hb
        by_contra hnot
        rw [hkeeps, he, Bool.eq_false_iff.mpr hnot] at hk
        exact hk hold
      · have hdead : tid ∉ s.2.threads := fun h => hlive (decide_eq_true h)
        exact forgotten_taskApplyIn fs allow hr (Bool.eq_false_iff.mpr hk) hdead

end

/-! ### One event -/

section

variable (fs : FsAnswers) (allow : Tid → Str → Bool) {cfg : AppConfig} {pc pc₀ : ProcCache}
  {s : AppliedMap × Placement} {ev : ProcEvent} {p : Str × Bool}

theorem eventApplyIn_some {tid pid : Tid} {comm : Str} {trust : Bool}
    (h : (pc.pkgLookupComm pid comm cfg).1 = some p) : eventApplyIn fs allow pc tid pid comm cfg trust s =
      (true, (taskApplyIn fs allow (pc.pkgLookupComm pid comm cfg).2 tid pid p.1 comm p.2 cfg trust s).2) := by
  unfold eventApplyIn
  generalize pc.pkgLookupComm pid comm cfg = found at h ⊢
  obtain ⟨_, pc'⟩ := found
  obtain rfl : _ = some p := h
  rfl

theorem eventApplyIn_none {tid pid : Tid} {comm : Str} {trust : Bool}
    (h : (pc.pkgLookupComm pid comm cfg).1 = none) :
    eventApplyIn fs allow pc tid pid comm cfg trust s = (false, pc, s) := by
  have hpc := pkgLookupComm_none h
  unfold eventApplyIn
  generalize pc.pkgLookupComm pid comm cfg = found at h hpc ⊢
  obtain ⟨_, pc'⟩ := found
  obtain rfl : _ = none := h
  obtain rfl : pc' = pc := hpc
  rfl

/-- An event whose package is resolved makes of its thread what the rules answer. -/
theorem met_eventApplyIn (hm : cfg.topo.memsStr ≠ [])
    (hrules : RulesReady cfg.topo cfg.rules s.2.tree) (hbase : BaseReady cfg.topo s.2.tree)
    (ht : pc₀.tasks = pc.tasks)
    (hp : pc₀.pkgs.lookup ev.pid = if ev.eventType = eventExec then none else pc.pkgs.lookup ev.pid)
    (hr : resolved pc cfg ev = some p) :
    ∃ out, eventApplyIn fs allow pc₀ ev.tid ev.pid (commStr ev.comm) cfg (trusts ev) s = (true, out) ∧
      (answerFate (binding cfg cfg.topo p.1 (eventName ev p)) (pc.tasks.lookup ev.tid) (s.2.live ev.tid)).Met allow
        cfg.topo ev.tid ev.pid (pc.tasks.lookup ev.tid) (s.2.threads.lookup ev.tid) out.1 out.2.2 := by
  have htasks : (pc₀.pkgLookupComm ev.pid (commStr ev.comm) cfg).2.tasks = pc.tasks :=
    (pkgLookupComm_tasks ..).trans ht
  refine ⟨_, eventApplyIn_some fs allow ((pkgLookupComm_fst pc₀ hp).trans hr), ?_⟩
  have hmet := @met_taskApplyIn fs allow cfg (pc₀.pkgLookupComm ev.pid (commStr ev.comm) cfg).2 s ev.tid ev.pid p.1
    (commStr ev.comm) p.2 (trusts ev) hm hrules hbase
  rw [htasks] at hmet
  exact hmet

/-- FORK and RENAME leave the thread alone when the package is not resolved. -/
theorem met_applied (hm : cfg.topo.memsStr ≠ [])
    (hrules : RulesReady cfg.topo cfg.rules s.2.tree) (hbase : BaseReady cfg.topo s.2.tree)
    (h : ev.eventType = eventFork ∨ ev.eventType = eventRename) :
    (fate cfg pc s.2 ev).Met allow cfg.topo ev.tid ev.pid (pc.tasks.lookup ev.tid) (s.2.threads.lookup ev.tid)
      (eventApplyIn fs allow pc ev.tid ev.pid (commStr ev.comm) cfg (trusts ev) s).2.1
      (eventApplyIn fs allow pc ev.tid ev.pid (commStr ev.comm) cfg (trusts ev) s).2.2.2 := by
  have hb : Binds ev := .inr h
  have hexec : ev.eventType ≠ eventExec := by
    rcases h with h | h
    all_goals
      rw [h]
      decide
  have hp : pc.pkgs.lookup ev.pid = if ev.eventType = eventExec then none else pc.pkgs.lookup ev.pid :=
    (if_neg hexec).symm
  unfold fate
  rw [if_neg hb.ne_exit, if_pos hb]
  cases hr : resolved pc cfg ev with
  | none =>
      rw [eventApplyIn_none fs allow ((pkgLookupComm_fst _ hp).trans hr)]
      dsimp only
      rw [if_neg hexec]
      exact ⟨rfl, rfl⟩
  | some p =>
      obtain ⟨out, he, hmet⟩ := met_eventApplyIn fs allow hm hrules hbase rfl hp hr
      rw [he]
      exact hmet

/-- EXEC forgets a thread whose new name is no package's. -/
theorem met_exec (hm : cfg.topo.memsStr ≠ [])
    (hrules : RulesReady cfg.topo cfg.rules s.2.tree) (hbase : BaseReady cfg.topo s.2.tree)
    (hexec : ev.eventType = eventExec) :
    (fate cfg pc s.2 ev).Met allow cfg.topo ev.tid ev.pid (pc.tasks.lookup ev.tid) (s.2.threads.lookup ev.tid)
      (eventDispatchIn fs allow ev cfg pc s).1 (eventDispatchIn fs allow ev cfg pc s).2.2 := by
  have hexit : ¬ ev.eventType = eventExit := by
    rw [hexec]
    decide
  have hp : ({ pc with pkgs := pc.pkgs.erase ev.pid } : ProcCache).pkgs.lookup ev.pid =
      if ev.eventType = eventExec then none else pc.pkgs.lookup ev.pid := by
    rw [if_pos hexec]
    exact AList.lookup_erase ev.pid pc.pkgs
  have htasks : ({ pc with pkgs := pc.pkgs.erase ev.pid } : ProcCache).tasks = pc.tasks := rfl
  have htrust : trusts ev = true := by
    unfold trusts
    rw [hexec]
    rfl
  unfold fate eventDispatchIn
  simp only [if_neg hexit, if_pos (show Binds ev from .inl hexec)]
  cases hr : resolved pc cfg ev with
  | none =>
      simp only [hexec, if_true, eventApplyIn_none fs allow ((pkgLookupComm_fst _ hp).trans hr)]
      refine ⟨?_, rfl⟩
      rw [taskDel_tasks]
      exact AList.lookup_eq_none.mp (AList.lookup_erase ..)
  | some p =>
      obtain ⟨out, he, hmet⟩ := met_eventApplyIn fs allow hm hrules hbase htasks hp hr
      rw [htrust] at he
      simp only [hexec, if_true, he]
      exact hmet

/-- `event_dispatch` makes of the thread what the event says. -/
theorem met_eventDispatchIn (hm : cfg.topo.memsStr ≠ [])
    (hrules : RulesReady cfg.topo cfg.rules s.2.tree) (hbase : BaseReady cfg.topo s.2.tree) :
    (fate cfg pc s.2 ev).Met allow cfg.topo ev.tid ev.pid (pc.tasks.lookup ev.tid) (s.2.threads.lookup ev.tid)
      (eventDispatchIn fs allow ev cfg pc s).1 (eventDispatchIn fs allow ev cfg pc s).2.2 := by
  by_cases hexec : ev.eventType = eventExec
  · exact met_exec fs allow hm hrules hbase hexec
  unfold eventDispatchIn
  by_cases hexit : ev.eventType = eventExit
  · have hfate : fate cfg pc s.2 ev = .forgotten := if_pos hexit
    rw [hfate]
    simp only [hexit, if_true]
    refine ⟨?_, rfl⟩
    rw [taskDel_tasks]
    exact AList.lookup_eq_none.mp (AList.lookup_erase ..)
  simp only [hexit, hexec, if_false]
  by_cases hfork : ev.eventType = eventFork
  · have htrust : trusts ev = decide (ev.tid = ev.pid) := if_pos hfork
    have hmet := @met_applied fs allow cfg pc s ev hm hrules hbase (.inl hfork)
    rw [htrust] at hmet
    simp only [hfork, if_true]
    exact hmet
  simp only [hfork, if_false]
  by_cases hren : ev.eventType = eventRename
  · have htrust : trusts ev = true := if_neg hfork
    have hmet := @met_applied fs allow cfg pc s ev hm hrules hbase (.inr hren)
    rw [htrust] at hmet
    simp only [hren, if_true]
    exact hmet
  · have hb : ¬ Binds ev := by
      rintro (h | h | h)
      · exact hexec h
      · exact hfork h
      · exact hren h
    have hfate : fate cfg pc s.2 ev = .untouched := by
      unfold fate
      rw [if_neg hexit, if_neg hb]
    rw [hfate]
    simp only [hren, if_false]
    exact ⟨rfl, rfl⟩

end

/-! ### Runs -/

/-- The fate of a thread is read off its entry and its standing. -/
theorem Fate.Met.congr {allow : Tid → Str → Bool} {topo : CpuTopology} {u pid : Tid} {old : Option TaskEntry}
    {x : Option Standing} {pc pc' : ProcCache} {w w' : Placement} {f : Fate} (h : f.Met allow topo u pid old x pc w)
    (htasks : pc'.tasks.lookup u = pc.tasks.lookup u) (hthreads : w'.threads.lookup u = w.threads.lookup u) :
    f.Met allow topo u pid old x pc' w' := by
  cases f with
  | untouched => exact ⟨htasks.trans h.1, hthreads.trans h.2⟩
  | forgotten =>
      exact ⟨AList.lookup_eq_none.mp (htasks.trans (AList.lookup_eq_none.mpr h.1)), hthreads.trans h.2⟩
  | bound cpus isThreadRule =>
      obtain ⟨e, y, he, hpid, hc, hflag, hy, hmask⟩ := h
      exact ⟨e, y, htasks.trans he, hpid, hc, hflag, hthreads.trans hy, hmask⟩

namespace Placed

variable {parse : Str → Option JsonValue} {allow : Tid → Str → Bool}

/-- The action is about another thread, or about none. -/
def Elsewhere (u : Tid) : PlacedAction → Prop
  | .event _ ev => ev.tid ≠ u
  | .reload .. => True
  | .foreign tid _ => tid ≠ u
  | .exit tid => tid ≠ u
  | _ => False

theorem elsewhere_step {s s' : Placed} {u : Tid} {a : PlacedAction} (h : Stocked s) (hu : Elsewhere u a)
    (hs : s.step parse allow a = some s') :
    s'.pc.tasks.lookup u = s.pc.tasks.lookup u ∧ s'.w.threads.lookup u = s.w.threads.lookup u := by
  cases a with
  | event fs ev =>
      obtain rfl := Option.some.inj hs
      exact (touches_eventDispatchIn fs allow s.pc (s.applied, s.w) h.mems h.rules ev).others u (Ne.symm hu)
  | reload fs data mtime cache =>
      obtain rfl := Option.some.inj hs
      exact ⟨rfl, rfl⟩
  | scan fs dir => exact hu.elim
  | correct => exact hu.elim
  | foreign tid x =>
      obtain rfl := Option.some.inj hs
      exact ⟨rfl, (KeyMap.lookup_insert s.w.threads tid u x).trans (if_neg (Ne.symm hu))⟩
  | exit tid =>
      obtain rfl := Option.some.inj hs
      exact ⟨rfl, (KeyMap.lookup_erase s.w.threads tid u).trans (if_neg (Ne.symm hu))⟩

/-- **What an event puts in force.**  On a device with cpusets an event makes of its thread what `fate`
says, a thread that is bound being moved as far as the kernel and the present CPUs allow it; and this
stays until the thread has another event, is moved or exits, or the daemon scans or corrects; the
entries and the masks of the other threads stay as they were. -/
theorem event_enforces (parse : Str → Option JsonValue) (allow : Tid → Str → Bool) (s s₁ s₂ : Placed) (fs : FsAnswers)
    (ev : ProcEvent) (hs : Runs.Reachable (step parse allow) (fun _ _ => True) (Init parse) s)
    (hbase : BaseReady s.cfg.topo s.w.tree)
    (ha : s.step parse allow (.event fs ev) = some s₁)
    (hrun : Runs.Steps (step parse allow) (fun _ a => Elsewhere ev.tid a) s₁ s₂) :
    (fate s.cfg s.pc s.w ev).Met allow s.cfg.topo ev.tid ev.pid (s.pc.tasks.lookup ev.tid)
        (s.w.threads.lookup ev.tid) s₂.pc s₂.w ∧
      ∀ u, u ≠ ev.tid → s₁.pc.tasks.lookup u = s.pc.tasks.lookup u ∧
        s₁.w.threads.lookup u = s.w.threads.lookup u := by
  have hstocked : Stocked s := hs.invariant (fun _ => stocked_init) fun _ _ _ h _ hstep => h.step hstep
  have hfirst : Stocked s₁ := hstocked.step ha
  have hlater : Stocked s₂ ∧ s₂.pc.tasks.lookup ev.tid = s₁.pc.tasks.lookup ev.tid ∧
      s₂.w.threads.lookup ev.tid = s₁.w.threads.lookup ev.tid :=
    hrun.invariant (I := fun x => Stocked x ∧ x.pc.tasks.lookup ev.tid = s₁.pc.tasks.lookup ev.tid ∧
        x.w.threads.lookup ev.tid = s₁.w.threads.lookup ev.tid)
      (fun x a x' hx hok hstep => by
        obtain ⟨htasks, hthreads⟩ := elsewhere_step hx.1 hok hstep
        exact ⟨hx.1.step hstep, htasks.trans hx.2.1, hthreads.trans hx.2.2⟩)
      ⟨hfirst, rfl, rfl⟩
  obtain rfl := Option.some.inj ha
  refine ⟨?_, (touches_eventDispatchIn fs allow s.pc (s.applied, s.w) hstocked.mems hstocked.rules ev).others⟩
  have hmet := @met_eventDispatchIn fs allow s.cfg s.pc (s.applied, s.w) ev hstocked.mems hstocked.rules hbase
  exact hmet.congr hlater.2.1 hlater.2.2

/-- The thread executes `com.a`, which the file puts on the CPUs 0 to 3; then another thread is moved. -/
theorem event_enforces_deployed :
    ∃ s₁ s₂,
      deployed.step (parseOf [oneEntry]) (fun _ _ => true)
        (.event .allows ⟨10, 10, Comm.ofText "com.a".toList, eventExec⟩) = some s₁ ∧
      s₁.step (parseOf [oneEntry]) (fun _ _ => true) (.foreign 20 ⟨fromRange "7".toList, baseCpuset⟩) = some s₂ ∧
      10 ∈ s₂.pc.tasks ∧ (s₂.w.threads.lookup 10).map Standing.mask = some (fromRange "0-3".toList) := by
  refine ⟨_, _, rfl, rfl, ?_⟩
  have hfate : fate deployed.cfg deployed.pc deployed.w ⟨10, 10, Comm.ofText "com.a".toList, eventExec⟩ =
      .bound (fromRange "0-3".toList) false := by
    decide +kernel
  have hother : Elsewhere 10 (.foreign 20 ⟨fromRange "7".toList, baseCpuset⟩) := by
    intro h
    cases h
  have hmet := (event_enforces (parseOf [oneEntry]) (fun _ _ => true) deployed _ _ .allows
    ⟨10, 10, Comm.ofText "com.a".toList, eventExec⟩ ⟨deployed, init_deployed, .refl _⟩ deployed_base rfl
    (.single hother rfl)).1
  rw [hfate] at hmet
  exact Stands.placed hmet deployed_movable

end Placed

end AetherOptExt
