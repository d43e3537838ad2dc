import AetherOptExt.AffinitySync
import AetherOptExt.CacheAgreement
import AetherOptExt.System

/-! # How an event changes a thread's binding

An EXEC event is meant to bind its thread from scratch: the package is resolved anew and the
new result is entered, or nothing is left of the old one.  `exec_rebinds_iff` says in which
states it does.  It does not when the new program has no rule, or a fallback meets the old
program's thread rule: then `task_apply` returns early and the old binding stays.

The same early return protects a binding made by a thread rule from the other events.  Along
every sequence of FORK and RENAME events, exits of other threads and corrections such a
binding is only replaced by the union of the thread rules that match the event's name
(`thread_rule_kept`). -/

namespace AetherOptExt

open ProcCache

/-! ### EXEC -/

section

variable (env : Env) (ev : ProcEvent) (cfg : AppConfig)

/-- What the matcher answers for the package that the event's own name resolves to. -/
def freshAnswer (pkg : Str) : Option AffinityResult :=
  threadAffinity env.createDir pkg (threadName (cfg.pkgHasThreadRules pkg) true (commStr ev.comm)) cfg cfg.topo

/-- The thread is alive and bound as its name now resolves, or it is neither bound nor in
`APPLIED_MAP`. -/
def BoundFresh (out : ProcCache × AppliedMap) : Prop :=
  (∃ pkg r, commToPkg (commStr ev.comm) cfg = some pkg ∧ freshAnswer env ev cfg pkg = some r ∧
    affinitySet env ev.tid r.cpus r.cpusetDir cfg.topo = false ∧
    out.1.tasks.lookup ev.tid = some ⟨ev.pid, r.cpus, r.cpusetDir, r.isThreadRule⟩) ∨
  (ev.tid ∉ out.1.tasks ∧ ev.tid ∉ out.2)

/-- The name resolves to no package; or to one without an answer, and the thread was not
managed before; or to one with an answer that is no fallback for an old thread rule, and the
thread is alive or not in `APPLIED_MAP`. -/
def ExecClean (pc : ProcCache) (applied : AppliedMap) : Prop :=
  ∀ pkg, commToPkg (commStr ev.comm) cfg = some pkg →
    (freshAnswer env ev cfg pkg = none → ev.tid ∉ pc.tasks ∧ ev.tid ∉ applied) ∧
    ∀ r, freshAnswer env ev cfg pkg = some r → pc.keeps ev.tid r = false ∧
      (affinitySet env ev.tid r.cpus r.cpusetDir cfg.topo = true → ev.tid ∉ applied)

end

section

variable {env : Env} {ev : ProcEvent} {cfg : AppConfig} {pc : ProcCache} {applied : AppliedMap}

/-- An EXEC event is handled under the package its name resolves to. -/
theorem resolved_exec (h : ev.eventType = eventExec) : resolved pc cfg ev =
    (commToPkg (commStr ev.comm) cfg).map (fun pkg => (pkg, cfg.pkgHasThreadRules pkg)) := by
  unfold resolved
  rw [if_pos h, Option.none_or]

theorem trusts_of_ne_fork (h : ev.eventType ≠ eventFork) : trusts ev = true := if_neg h

/-- Without an answer or with another entry than the answer's, the thread must be unmanaged. -/
theorem boundFresh_iff {out : ProcCache × AppliedMap} {pkg : Str} (hp : commToPkg (commStr ev.comm) cfg = some pkg)
    (hne : ∀ r, freshAnswer env ev cfg pkg = some r → affinitySet env ev.tid r.cpus r.cpusetDir cfg.topo = false →
      out.1.tasks.lookup ev.tid ≠ some (entryOf ev.pid r)) :
    BoundFresh env ev cfg out ↔ ev.tid ∉ out.1.tasks ∧ ev.tid ∉ out.2 := by
  constructor
  · rintro (⟨pkg', r, hp', hr, ha, hl⟩ | h)
    · obtain rfl := Option.some.inj (hp.symm.trans hp')
      exact absurd hl (hne r hr ha)
    · exact h
  · exact Or.inr

theorem execClean_congr {pc₁ : ProcCache} (ht : pc₁.tasks = pc.tasks) :
    ExecClean env ev cfg pc₁ applied ↔ ExecClean env ev cfg pc applied := by
  unfold ExecClean keeps
  rw [ht]

/-- One package is what the condition is about. -/
theorem execClean_iff {pkg : Str} (hp : commToPkg (commStr ev.comm) cfg = some pkg) :
    ExecClean env ev cfg pc applied ↔
      (freshAnswer env ev cfg pkg = none → ev.tid ∉ pc.tasks ∧ ev.tid ∉ applied) ∧
      ∀ r, freshAnswer env ev cfg pkg = some r → pc.keeps ev.tid r = false ∧
        (affinitySet env ev.tid r.cpus r.cpusetDir cfg.topo = true → ev.tid ∉ applied) :=
  ⟨fun hx => hx pkg hp, fun hx _ hp' => Option.some.inj (hp.symm.trans hp') ▸ hx⟩

/-- When `task_apply` binds from scratch under the package of the event's name. -/
theorem boundFresh_apply_iff {pkg : Str} {out : Bool × ProcCache × AppliedMap}
    (hp : commToPkg (commStr ev.comm) cfg = some pkg)
    (hc : ApplyCase env.createDir pc ev.tid ev.pid pkg
      (threadName (cfg.pkgHasThreadRules pkg) true (commStr ev.comm)) cfg (eventAffinityApply env cfg.topo) applied out) :
    BoundFresh env ev cfg out.2 ↔ ExecClean env ev cfg pc applied := by
  rw [execClean_iff hp]
  cases hc with
  | unruled hr =>
      -- nothing changes
      change freshAnswer env ev cfg pkg = none at hr
      rw [boundFresh_iff hp fun r hr' => absurd (hr.symm.trans hr') (Option.some_ne_none r).symm, hr]
      simp
  | @kept r hr hk =>
      -- the old thread rule's entry stays
      change freshAnswer env ev cfg pkg = some r at hr
      obtain ⟨e, he, hold, hnew⟩ := keeps_mem hk
      rw [boundFresh_iff hp fun r' hr' _ hl => ?_]
      · refine iff_of_false (fun hx => hx.1 (KeyMap.mem_of_lookup he)) fun hx => ?_
        exact Bool.noConfusion (hk.symm.trans (hx.2 r hr).1)
      · obtain rfl := Option.some.inj (hr.symm.trans hr')
        obtain rfl := Option.some.inj (he.symm.trans hl)
        exact Bool.false_ne_true (hnew.symm.trans hold)
  | @gone r hr hk hd =>
      -- the thread loses its entry, but not its place in `APPLIED_MAP`
      change freshAnswer env ev cfg pkg = some r at hr
      have hdead := hd
      rw [eventAffinityApply_fst] at hdead
      rw [boundFresh_iff hp fun r' hr' ha => ?_]
      · rw [eventAffinityApply_of_dead hd, hr]
        simp [hk, hdead]
      · obtain rfl := Option.some.inj (hr.symm.trans hr')
        rw [hdead] at ha
        cases ha
  | @bound r hr hk hd =>
      change freshAnswer env ev cfg pkg = some r at hr
      have halive := hd
      rw [eventAffinityApply_fst] at halive
      refine iff_of_true (Or.inl ⟨pkg, r, hp, hr, halive, AList.lookup_insert _⟩) ⟨fun hn => ?_, fun r' hr' => ?_⟩
      · rw [hr] at hn
        cases hn
      · obtain rfl := Option.some.inj (hr.symm.trans hr')
        refine ⟨hk, fun hx => ?_⟩
        rw [halive] at hx
        cases hx

/-- **When EXEC binds from scratch.** -/
theorem exec_rebinds_iff (env : Env) (ev : ProcEvent) (cfg : AppConfig) (pc : ProcCache) (applied : AppliedMap)
    (h : ev.eventType = eventExec) :
    BoundFresh env ev cfg (eventDispatch env ev cfg pc applied) ↔ ExecClean env ev cfg pc applied := by
  have hc := eventDispatch_case env ev cfg pc applied
  have hbind : Binds ev := Or.inl h
  generalize eventDispatch env ev cfg pc applied = out at hc ⊢
  cases hc with
  | exit hx => exact absurd hx hbind.ne_exit
  | ignored _ hb => exact absurd hbind hb
  | unresolved hx hr =>
      rw [h] at hx
      exact absurd hx (by decide)
  | dropped _ hr =>
      rw [resolved_exec h, Option.map_eq_none_iff] at hr
      refine iff_of_true (Or.inr ⟨fun hm => ?_, fun hm => ?_⟩) fun pkg hp => ?_
      · exact (mem_taskDel.mp hm).1 rfl
      · exact (mem_appliedDel.mp hm).1 rfl
      · rw [hr] at hp
        cases hp
  | @applied p pc₁ out _ hr ht hpkgs hc =>
      rw [resolved_exec h, Option.map_eq_some_iff] at hr
      obtain ⟨pkg, hp, rfl⟩ := hr
      have hname : eventName ev (pkg, cfg.pkgHasThreadRules pkg) =
          threadName (cfg.pkgHasThreadRules pkg) true (commStr ev.comm) := by
        unfold eventName
        rw [trusts_of_ne_fork (by rw [h]; decide)]
      rw [hname] at hc
      rw [boundFresh_apply_iff hp hc]
      exact execClean_congr ht

end

/-- The main thread 100 becomes the program `com.b`. -/
def execB : ProcEvent := ⟨100, 100, Comm.ofText "com.b".toList, eventExec⟩

/-- A process that was `com.a`, bound by a thread rule, becomes `com.b`, and its main thread
keeps the binding of `com.a`. -/
theorem exec_keeps_old_binding :
    ∃ s : Sys, Runs.run (Sys.step Sys.someLayout) (Sys.appProcess "zygote".toList)
        [Sys.renames 100 "com.a", .dispatch allAlive, Sys.renames 100 "com.b", .dispatch allAlive,
          .kernel (.exec 100)] = some s ∧
      s.queue = [(execB, ⟨0, 0⟩)] ∧
      ¬ BoundFresh (allAlive.over s.live) execB s.cfg
        (eventDispatch (allAlive.over s.live) execB s.cfg s.cache s.applied) := by
  obtain ⟨s, hs, hp⟩ := Runs.exists_run (Sys.step Sys.someLayout) (Sys.appProcess "zygote".toList)
    [Sys.renames 100 "com.a", .dispatch allAlive, Sys.renames 100 "com.b", .dispatch allAlive, .kernel (.exec 100)]
    (fun s : Sys => decide (s.queue = [(execB, ⟨0, 0⟩)]) &&
      decide (commToPkg (commStr execB.comm) s.cfg = some "com.b".toList) &&
      (freshAnswer (allAlive.over s.live) execB s.cfg "com.b".toList).any (fun r => !r.isThreadRule) &&
      ((eventDispatch (allAlive.over s.live) execB s.cfg s.cache s.applied).1.tasks.lookup 100).any
        (fun e => e.isThreadRule)) (by decide +kernel)
  rw [Bool.and_eq_true, Bool.and_eq_true, Bool.and_eq_true, decide_eq_true_eq, decide_eq_true_eq] at hp
  obtain ⟨⟨⟨hq, hpkg⟩, hr⟩, he⟩ := hp
  obtain ⟨r, hr, hfall⟩ := (Option.any_eq_true _ _).mp hr
  obtain ⟨e, he, hrule⟩ := (Option.any_eq_true _ _).mp he
  refine ⟨s, hs, hq, ?_⟩
  rintro (⟨pkg, r', hp', hr', -, hl⟩ | ⟨hn, -⟩)
  · obtain rfl := Option.some.inj (hpkg.symm.trans hp')
    obtain rfl := Option.some.inj (hr.symm.trans hr')
    obtain rfl := Option.some.inj (he.symm.trans hl)
    rw [Bool.not_eq_true'] at hfall
    exact Bool.false_ne_true (hfall.symm.trans hrule)
  · exact hn (KeyMap.mem_of_lookup he)

/-- The thread 100 as the package's rule of `com.a` has bound it. -/
def boundAsA : ProcCache where
  pkgs := (∅ : KeyMap Tid (Str × Bool)).insert 100 ("com.a".toList, true)
  tasks := (∅ : KeyMap Tid TaskEntry).insert 100 ⟨100, fromRange "0-3".toList, [], false⟩

/-- It is bound for `com.b` instead. -/
theorem exec_rebinds_iff_other :
    ((eventDispatch allAlive execB Sys.fourApps boundAsA ((∅ : AppliedMap).insert 100 15)).1.tasks.lookup 100).map
        (fun e => e.cpus) = some (fromRange "4".toList) ∧
      (BoundFresh allAlive execB Sys.fourApps
          (eventDispatch allAlive execB Sys.fourApps boundAsA ((∅ : AppliedMap).insert 100 15)) ↔
        ExecClean allAlive execB Sys.fourApps boundAsA ((∅ : AppliedMap).insert 100 15)) :=
  ⟨by decide +kernel, exec_rebinds_iff allAlive execB Sys.fourApps boundAsA ((∅ : AppliedMap).insert 100 15) rfl⟩

/-! ### Bindings made by a thread rule -/

/-- The thread is bound by a thread rule. -/
def CacheState.RuleBound (s : CacheState) (t : Tid) : Prop :=
  ∃ e, s.cache.tasks.lookup t = some e ∧ e.isThreadRule = true

/-- A FORK or RENAME event, the exit of another thread, or a correction. -/
def CacheStep.Spares (t : Tid) : CacheStep → Prop
  | .scan _ _ => False
  | .event _ ev => ev.eventType = eventFork ∨ ev.eventType = eventRename ∨ (ev.eventType = eventExit ∧ ev.tid ≠ t)
  | .sync _ => True

/-- Such a step, after which the thread is still bound. -/
def StaysBound (t : Tid) (s : CacheState) (a : CacheStep) : Prop :=
  a.Spares t ∧ ∀ s', cacheStep s a = some s' → t ∈ s'.cache.tasks

/-- A thread rule's answer has the CPUs of the thread rules that match, and some CPU. -/
theorem threadAffinity_of_thread_rule {mk : DirCall → Bool} {pkg name : Str} {cfg : AppConfig} {topo : CpuTopology}
    {r : AffinityResult} (h : threadAffinity mk pkg name cfg topo = some r) (hr : r.isThreadRule = true) :
    r.cpus = unionCpus (threadRules cfg.rules pkg name) ∧ r.cpus ≠ CpuSet.new ∧ name ≠ [] := by
  have hb := binding_of_threadAffinity h
  unfold binding at hb
  dsimp only at hb
  have hpair : ∀ {c : CpuSet} {f : Bool}, some (c, f) = some r.binding → c = r.cpus ∧ f = r.isThreadRule :=
    fun he => Prod.mk.inj (Option.some.inj he)
  split_ifs at hb with hn
  · exact absurd ((hpair hb).2.trans hr) Bool.false_ne_true
  · obtain ⟨hcpus, hflag⟩ := hpair hb
    have hT : threadRules cfg.rules pkg name ≠ [] := by simpa using hflag.trans hr
    have hgov : governingRules cfg.rules pkg name = threadRules cfg.rules pkg name := if_neg hT
    rw [hgov] at hcpus hn
    refine ⟨hcpus.symm, hcpus ▸ hn, ?_⟩
    rintro rfl
    exact hT (threadRules_nil cfg.rules pkg)

/-- What an event that is no EXEC does to a thread rule's binding of its own thread: nothing, or
the thread is not bound any more, or the name is trusted and the thread rules that match it
make a new one. -/
theorem dispatch_ruleBound {env : Env} {ev : ProcEvent} {cfg : AppConfig} {pc : ProcCache} {applied : AppliedMap}
    {out : ProcCache × AppliedMap} (hc : DispatchCase env ev cfg pc applied out) (hne : ev.eventType ≠ eventExit)
    (hx : ev.eventType ≠ eventExec) {e : TaskEntry} (he : pc.tasks.lookup ev.tid = some e) (hrule : e.isThreadRule = true) :
    out.1.tasks.lookup ev.tid = some e ∨ (trusts ev = true ∧ (out.1.tasks.lookup ev.tid = none ∨
      ∃ p e', resolved pc cfg ev = some p ∧ out.1.tasks.lookup ev.tid = some e' ∧ e'.isThreadRule = true ∧
        e'.cpus = unionCpus (threadRules cfg.rules p.1 (commStr ev.comm)) ∧ e'.cpus ≠ CpuSet.new)) := by
  cases hc with
  | exit h => exact absurd h hne
  | dropped h => exact absurd h hx
  | unresolved => exact Or.inl he
  | ignored => exact Or.inl he
  | @applied p pc₁ out hb hr ht hp hc =>
      have he₁ : pc₁.tasks.lookup ev.tid = some e := by
        rw [ht]
        exact he
      -- a fallback would have been dropped
      have hfull : ∀ r, threadAffinity env.createDir p.1 (eventName ev p) cfg cfg.topo = some r →
          pc₁.keeps ev.tid r = false → r.isThreadRule = true ∧ trusts ev = true ∧
            r.cpus = unionCpus (threadRules cfg.rules p.1 (commStr ev.comm)) ∧ r.cpus ≠ CpuSet.new := by
        intro r hr hk
        have hrr : r.isThreadRule = true := by
          unfold keeps at hk
          simpa [he₁, hrule] using hk
        obtain ⟨hcpus, hnew, hname⟩ := threadAffinity_of_thread_rule hr hrr
        have hboth : (p.2 && trusts ev) = true := by
          by_contra hn
          exact hname (if_neg hn)
        have heq : eventName ev p = commStr ev.comm := if_pos hboth
        rw [heq] at hcpus
        exact ⟨hrr, (Bool.and_eq_true_iff.mp hboth).2, hcpus, hnew⟩
      cases hc with
      | unruled => exact Or.inl he₁
      | kept => exact Or.inl he₁
      | gone hr hk => exact Or.inr ⟨(hfull _ hr hk).2.1, Or.inl (AList.lookup_erase _ _)⟩
      | @bound r hr' hk =>
          obtain ⟨hrr, htrust, hcpus, hnew⟩ := hfull r hr' hk
          exact Or.inr ⟨htrust, Or.inr ⟨p, entryOf ev.pid r, hr, AList.lookup_insert _, hrr, hcpus, hnew⟩⟩

/-- One step keeps a thread rule's binding, or replaces it by that of the thread rules that
match the event's name. -/
theorem RuleBound.step {t : Tid} {s s' : CacheState} {a : CacheStep} (h : s.RuleBound t) (hok : StaysBound t s a)
    (hs : cacheStep s a = some s') :
    s'.cache.tasks.lookup t = s.cache.tasks.lookup t ∨
      ∃ env ev p e, a = .event env ev ∧ ev.tid = t ∧ trusts ev = true ∧ resolved s.cache s.cfg ev = some p ∧
        s'.cache.tasks.lookup t = some e ∧ e.isThreadRule = true ∧
        e.cpus = unionCpus (threadRules s.cfg.rules p.1 (commStr ev.comm)) ∧ e.cpus ≠ CpuSet.new := by
  obtain ⟨hspare, hbound⟩ := hok
  have hmem := hbound s' hs
  obtain ⟨e, he, hrule⟩ := h
  cases a with
  | scan => exact absurd hspare id
  | sync env =>
      obtain rfl := Option.some.inj hs
      obtain ⟨e', he'⟩ := KeyMap.mem_iff_lookup.mp hmem
      have hl := @affinitySync_tasks_lookup s.cache env s.cfg.topo t
      refine Or.inl (hl.trans (if_neg fun hd => ?_))
      rw [if_pos hd] at hl
      exact absurd (he'.symm.trans hl) (Option.some_ne_none e')
  | event env ev =>
      obtain rfl := Option.some.inj hs
      have hc := eventDispatch_case env ev s.cfg s.cache s.applied
      by_cases ht : ev.tid = t
      · subst ht
        have hne : ev.eventType ≠ eventExit := by
          rcases hspare with h | h | h
          · rw [h]; decide
          · rw [h]; decide
          · exact absurd rfl h.2
        have hx : ev.eventType ≠ eventExec := by
          rcases hspare with h | h | h
          · rw [h]; decide
          · rw [h]; decide
          · rw [h.1]; decide
        rcases dispatch_ruleBound hc hne hx he hrule with hl | ⟨htrust, hl | ⟨p, e', hr, hl, hrr, hcpus, hnew⟩⟩
        · exact Or.inl (hl.trans he.symm)
        · obtain ⟨e', he'⟩ := KeyMap.mem_iff_lookup.mp hmem
          exact absurd (he'.symm.trans hl) (Option.some_ne_none e')
        · exact Or.inr ⟨env, ev, p, e', rfl, rfl, htrust, hr, hl, hrr, hcpus, hnew⟩
      · exact Or.inl (dispatch_tasks_ne hc ht)

/-- **A thread rule's binding is never downgraded**: along every sequence of FORK and RENAME
events, exits of other threads and corrections through which a thread stays bound, it stays
bound by a thread rule; a FORK of a worker leaves its entry alone, and an event that changes
the entry gives it the CPUs of the thread rules that match the event's name. -/
theorem thread_rule_kept (t : Tid) (s s' : CacheState) (h : s.RuleBound t)
    (hr : Runs.Steps cacheStep (StaysBound t) s s') :
    s'.RuleBound t ∧ s'.cfg = s.cfg ∧
    ∀ a s'', StaysBound t s' a → cacheStep s' a = some s'' →
      (∀ env ev, a = .event env ev → ev.eventType = eventFork → ev.tid ≠ ev.pid →
        s''.cache.tasks.lookup t = s'.cache.tasks.lookup t) ∧
      (s''.cache.tasks.lookup t ≠ s'.cache.tasks.lookup t →
        ∃ env ev p e, a = .event env ev ∧ ev.tid = t ∧ resolved s'.cache s'.cfg ev = some p ∧
          s''.cache.tasks.lookup t = some e ∧ e.isThreadRule = true ∧
          e.cpus = unionCpus (threadRules s'.cfg.rules p.1 (commStr ev.comm)) ∧ e.cpus ≠ CpuSet.new) := by
  have hbound : s'.RuleBound t := by
    refine hr.invariant (I := fun s => s.RuleBound t) (fun s a s' hI hok hs => ?_) h
    rcases RuleBound.step hI hok hs with hl | ⟨_, _, _, e, -, -, -, -, hl, hrule, -, -⟩
    · obtain ⟨e, he, hrule⟩ := hI
      exact ⟨e, hl.trans he, hrule⟩
    · exact ⟨e, hl, hrule⟩
  have hcfg : s'.cfg = s.cfg := by
    refine hr.invariant (I := fun s' => s'.cfg = s.cfg) (fun s₁ a s₂ hI hok hs => ?_) rfl
    cases a with
    | scan => exact absurd hok.1 id
    | event env ev => exact (congrArg CacheState.cfg (Option.some.inj hs)).symm.trans hI
    | sync env => exact (congrArg CacheState.cfg (Option.some.inj hs)).symm.trans hI
  refine ⟨hbound, hcfg, fun a s'' hok hs => ⟨fun env ev ha hfork hworker => ?_, fun hne => ?_⟩⟩
  · rcases RuleBound.step hbound hok hs with hl | ⟨env', ev', _, _, ha', -, htrust, -⟩
    · exact hl
    · -- the name of a forked worker is not trusted
      obtain ⟨-, rfl⟩ := CacheStep.event.inj (ha.symm.trans ha')
      have hfalse : trusts ev = false := by
        unfold trusts
        rw [if_pos hfork, decide_eq_false hworker]
      exact absurd (htrust.symm.trans hfalse) (Bool.false_ne_true ∘ Eq.symm)
  · rcases RuleBound.step hbound hok hs with hl | ⟨env, ev, p, e, ha, ht, -, hres, hl, hrule, hcpus, hnew⟩
    · exact absurd hl hne
    · exact ⟨env, ev, p, e, ha, ht, hres, hl, hrule, hcpus, hnew⟩

/-- The main thread of `com.a` after its first event: bound by the rule `com.*`. -/
def ruleBound100 : CacheState :=
  let out := eventDispatch allAlive renamed100 Sys.fourApps ProcCache.new ∅
  ⟨Sys.fourApps, out.1, out.2⟩

/-- The main thread takes the name `Render`, which another rule matches. -/
def render100 : ProcEvent := ⟨100, 100, Comm.ofText "Render".toList, eventRename⟩

theorem thread_rule_kept_renamed :
    ∃ s, cacheStep ruleBound100 (.event allAlive render100) = some s ∧ s.RuleBound 100 ∧
      s.cache.tasks.lookup 100 ≠ ruleBound100.cache.tasks.lookup 100 := by
  have hfirst : ruleBound100.RuleBound 100 := by
    have hany : (ruleBound100.cache.tasks.lookup 100).any (fun e => e.isThreadRule) = true := by decide +kernel
    exact (Option.any_eq_true _ _).mp hany
  have hstays : StaysBound 100 ruleBound100 (.event allAlive render100) := by
    refine ⟨Or.inr (Or.inl rfl), fun s hs => ?_⟩
    obtain rfl := Option.some.inj hs
    decide +kernel
  refine ⟨_, rfl, (thread_rule_kept 100 ruleBound100 _ hfirst (.single hstays rfl)).1, ?_⟩
  decide +kernel

end AetherOptExt
