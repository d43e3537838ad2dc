import AetherOptExt.ProcCache
import AetherOptExt.Lib.Sweep

/-! # The daemon in eBPF mode (`main.rs`)

`eventDispatch` handles one event, `fullScan` rebuilds the cache from `/proc`, and
`correctAffinity` is the periodic correction of the main loop.  All of them work on the
process cache and on `APPLIED_MAP`.

What a scan reads of `/proc` is a list of `ProcReading`; each thread of it comes with the
operating system's answers at the moment it is bound. -/

namespace AetherOptExt

/-- `comm_str`: the bytes before the first NUL, as trimmed text. -/
def commStr (comm : Comm) : Str :=
  Str.trim ((Str.fromUtf8 (comm.bytes.takeWhile (· != 0))).getD [])

/-! ### Events -/

/-- `event_affinity_apply`: bind a thread and enter it into `APPLIED_MAP`. -/
def eventAffinityApply (env : Env) (topo : CpuTopology) (tid : Tid) (cpus : CpuSet) (cpusetDir : Str)
    (applied : AppliedMap) : Bool × AppliedMap :=
  let dead := affinitySet env tid cpus cpusetDir topo
  (dead, if !dead then appliedSet applied tid (cpus.word 0) else applied)

/-- `event_apply`: `false` when the name resolves to no package. -/
def eventApply (env : Env) (pc : ProcCache) (applied : AppliedMap) (tid pid : Tid) (comm : Str)
    (cfg : AppConfig) (trustComm : Bool) : Bool × ProcCache × AppliedMap :=
  match pc.pkgLookupComm pid comm cfg with
  | (none, pc) => (false, pc, applied)
  | (some (pkg, hasThreadRules), pc) =>
      let out := pc.taskApply env.createDir tid pid pkg comm hasThreadRules cfg trustComm
        (eventAffinityApply env cfg.topo) applied
      (true, out.2)

/-- `event_dispatch`. -/
def eventDispatch (env : Env) (event : ProcEvent) (cfg : AppConfig) (pc : ProcCache) (applied : AppliedMap) :
    ProcCache × AppliedMap :=
  let tid := event.tid
  let pid := event.pid
  let comm := commStr event.comm
  if event.eventType = eventExit then
    let pc := if tid = pid then { pc with pkgs := pc.pkgs.erase pid } else pc
    (pc.taskDel tid, appliedDel applied tid)
  else if event.eventType = eventExec then
    let pc := { pc with pkgs := pc.pkgs.erase pid }
    match eventApply env pc applied tid pid comm cfg true with
    | (false, pc, applied) => (pc.taskDel tid, appliedDel applied tid)
    | (true, out) => out
  else if event.eventType = eventFork then
    -- the child's name is the parent's, so it is trusted on a main thread only
    (eventApply env pc applied tid pid comm cfg (tid = pid)).2
  else if event.eventType = eventRename then
    (eventApply env pc applied tid pid comm cfg true).2
  else (pc, applied)

/-! ### The full scan -/

/-- The name of a process before its first colon. -/
def basePkg (pkg : Str) : Str := splitFirst ':' pkg

/-- The test `interested` of the scanners: the name is configured, or its part before the
colon, or a wildcard matches. -/
def interested (cfg : AppConfig) (pkg : Str) : Bool :=
  decide (pkg ∈ cfg.pkgSet) || decide (basePkg pkg ∈ cfg.pkgSet) || cfg.wild.any (fun w => fnmatch w pkg)

/-- One thread of a process as the scan finds it. -/
structure TidReading where
  tid : Tid
  comm : Option Str
  env : Env

/-- One entry of `/proc` as the scan finds it; `pid` is the entry's name as a number. -/
structure ProcReading where
  pid : Option Tid
  cmdline : Option Str
  comm : Option Str
  tids : Option (List TidReading)

/-- A process the scan has selected. -/
structure ScanTarget where
  pid : Tid
  pkg : Str
  htr : Bool
  tids : Option (List TidReading)

/-- The selection of one entry. -/
def scanTarget (cfg : AppConfig) (r : ProcReading) : Option ScanTarget := do
  let pid ← r.pid
  let pkg ← (readCmdline r.cmdline).or (tidComm r.comm)
  if interested cfg pkg then some ⟨pid, pkg, cfg.pkgHasThreadRules pkg, r.tids⟩ else none

/-- The name the scan passes for a thread. -/
def scanName (htr : Bool) (comm : Option Str) : Str := if htr then (tidComm comm).getD [] else []

/-- The scan of one thread. -/
def scanTask (cfg : AppConfig) (pid : Tid) (pkg : Str) (htr : Bool) (acc : ProcCache × AppliedMap)
    (t : TidReading) : ProcCache × AppliedMap :=
  (acc.1.taskApply t.env.createDir t.tid pid pkg (scanName htr t.comm) htr cfg true
    (eventAffinityApply t.env cfg.topo) acc.2).2

/-- The scan of one selected process: its threads, then its entry in `pkgs`. -/
def scanProc (cfg : AppConfig) (acc : ProcCache × AppliedMap) (t : ScanTarget) : ProcCache × AppliedMap :=
  match t.tids with
  | none => acc
  | some tids =>
      let acc := tids.foldl (scanTask cfg t.pid t.pkg t.htr) acc
      ({ acc.1 with pkgs := acc.1.pkgs.insert t.pid (t.pkg, t.htr) }, acc.2)

/-- `full_scan`; `dir` is the listing of `/proc`. -/
def fullScan (cfg : AppConfig) (dir : Option (List ProcReading)) (pc : ProcCache) (applied : AppliedMap) :
    ProcCache × AppliedMap :=
  let pc := pc.clear
  let applied := appliedClear applied
  match dir with
  | none => (pc, applied)
  | some entries => (entries.filterMap (scanTarget cfg)).foldl (scanProc cfg) (pc, applied)

/-! ### The periodic correction -/

/-- The correction of the main loop: `affinity_sync`, then `applied_del` of what it returns. -/
def correctAffinity (env : Tid → Env) (cfg : AppConfig) (pc : ProcCache) (applied : AppliedMap) :
    ProcCache × AppliedMap :=
  let (dead, pc) := pc.affinitySync env cfg.topo
  (pc, dead.foldl appliedDel applied)

/-! ### What a scan records -/

/-- The scan selects a name that is configured, whose base is, or that a wildcard matches. -/
theorem interested_iff {cfg : AppConfig} {pkg : Str} :
    interested cfg pkg = true ↔
      pkg ∈ cfg.pkgSet ∨ basePkg pkg ∈ cfg.pkgSet ∨ ∃ w ∈ cfg.wild, fnmatch w pkg = true := by
  unfold interested
  rw [Bool.or_eq_true, Bool.or_eq_true, decide_eq_true_eq, decide_eq_true_eq, List.any_eq_true, or_assoc]

theorem scanTarget_eq_some {cfg : AppConfig} {r : ProcReading} {t : ScanTarget} :
    scanTarget cfg r = some t ↔
      ∃ pid pkg, r.pid = some pid ∧ (readCmdline r.cmdline).or (tidComm r.comm) = some pkg ∧
        interested cfg pkg = true ∧ t = ⟨pid, pkg, cfg.pkgHasThreadRules pkg, r.tids⟩ := by
  unfold scanTarget
  simp only [Option.bind_eq_bind, Option.bind_eq_some_iff]
  constructor
  · rintro ⟨pid, hpid, pkg, hpkg, h⟩
    split_ifs at h with hi
    exact ⟨pid, pkg, hpid, hpkg, hi, (Option.some.inj h).symm⟩
  · rintro ⟨pid, pkg, hpid, hpkg, hi, rfl⟩
    exact ⟨pid, hpid, pkg, hpkg, if_pos hi⟩

theorem scanTask_pkgs (cfg : AppConfig) (pid : Tid) (pkg : Str) (htr : Bool) (acc : ProcCache × AppliedMap)
    (t : TidReading) : (scanTask cfg pid pkg htr acc t).1.pkgs = acc.1.pkgs :=
  ProcCache.taskApply_pkgs (ProcCache.taskApply_case ..)

theorem foldl_scanTask_pkgs (cfg : AppConfig) (pid : Tid) (pkg : Str) (htr : Bool) (tids : List TidReading)
    (acc : ProcCache × AppliedMap) : (tids.foldl (scanTask cfg pid pkg htr) acc).1.pkgs = acc.1.pkgs :=
  Sweep.foldl_frame (fun acc : ProcCache × AppliedMap => acc.1.pkgs) tids acc fun t _ acc =>
    scanTask_pkgs cfg pid pkg htr acc t

/-- The scan of a process whose threads can be listed maps it, and nothing else. -/
theorem scanProc_lookup (cfg : AppConfig) (acc : ProcCache × AppliedMap) (t : ScanTarget) (q : Tid) :
    (scanProc cfg acc t).1.pkgs.lookup q =
      if q = t.pid ∧ t.tids.isSome then some (t.pkg, t.htr) else acc.1.pkgs.lookup q := by
  unfold scanProc
  cases t.tids with
  | none => simp
  | some tids =>
      simp only [KeyMap.lookup_insert, foldl_scanTask_pkgs, Option.isSome_some, and_true]

theorem foldl_scanProc_lookup_ne (cfg : AppConfig) {q : Tid} (ts : List ScanTarget) (acc : ProcCache × AppliedMap)
    (h : ∀ t ∈ ts, t.pid ≠ q) : (ts.foldl (scanProc cfg) acc).1.pkgs.lookup q = acc.1.pkgs.lookup q := by
  refine Sweep.foldl_frame (fun acc : ProcCache × AppliedMap => acc.1.pkgs.lookup q) ts acc fun t ht acc => ?_
  rw [scanProc_lookup, if_neg fun hq => h t ht hq.1.symm]

/-- With one entry for each process, a listed target is mapped to the name it was found under. -/
theorem foldl_scanProc_lookup (cfg : AppConfig) {t : ScanTarget} (htids : t.tids.isSome = true) :
    ∀ (ts : List ScanTarget) (acc : ProcCache × AppliedMap), (ts.map ScanTarget.pid).Nodup → t ∈ ts →
      (ts.foldl (scanProc cfg) acc).1.pkgs.lookup t.pid = some (t.pkg, t.htr)
  | u :: ts, acc, hn, ht => by
      rw [List.map_cons, List.nodup_cons] at hn
      rw [List.foldl_cons]
      rcases List.mem_cons.mp ht with rfl | ht
      · have hne : ∀ v ∈ ts, v.pid ≠ t.pid := fun v hv he => hn.1 (List.mem_map.mpr ⟨v, hv, he⟩)
        rw [foldl_scanProc_lookup_ne cfg ts _ hne, scanProc_lookup, if_pos ⟨rfl, htids⟩]
      · exact foldl_scanProc_lookup cfg htids ts _ hn.2 ht

/-! ### What an event does -/

variable {env : Env} {cfg : AppConfig} {pc : ProcCache} {applied : AppliedMap} {tid pid : Tid} {comm : Str}
  {trust : Bool}

/-- `event_apply` either resolves nothing and changes nothing, or maps the process and is one
`task_apply`. -/
theorem eventApply_case :
    ((pc.pkgLookupComm pid comm cfg).1 = none ∧
      eventApply env pc applied tid pid comm cfg trust = (false, pc, applied)) ∨
    ∃ p out, (pc.pkgLookupComm pid comm cfg).1 = some p ∧
      ProcCache.ApplyCase env.createDir (pc.pkgLookupComm pid comm cfg).2 tid pid p.1
        (ProcCache.threadName p.2 trust comm) cfg (eventAffinityApply env cfg.topo) applied out ∧
      eventApply env pc applied tid pid comm cfg trust = (true, out.2) := by
  unfold eventApply
  cases hl : pc.pkgLookupComm pid comm cfg with
  | mk o pc' =>
      cases o with
      | none =>
          have hnone : (pc.pkgLookupComm pid comm cfg).1 = none := by rw [hl]
          have hpc := ProcCache.pkgLookupComm_none hnone
          rw [hl] at hpc
          exact Or.inl ⟨rfl, by rw [← hpc]⟩
      | some p =>
          refine Or.inr ⟨p, _, rfl, ProcCache.taskApply_case .., ?_⟩
          rfl

theorem eventAffinityApply_fst (env : Env) (topo : CpuTopology) (tid : Tid) (cpus : CpuSet) (dir : Str)
    (applied : AppliedMap) :
    (eventAffinityApply env topo tid cpus dir applied).1 = affinitySet env tid cpus dir topo := rfl

theorem eventAffinityApply_of_dead {cpus : CpuSet} {dir : Str} {topo : CpuTopology}
    (h : (eventAffinityApply env topo tid cpus dir applied).1 = true) :
    (eventAffinityApply env topo tid cpus dir applied).2 = applied := by
  rw [eventAffinityApply_fst] at h
  simp [eventAffinityApply, h]

theorem eventAffinityApply_of_alive {cpus : CpuSet} {dir : Str} {topo : CpuTopology}
    (h : (eventAffinityApply env topo tid cpus dir applied).1 = false) :
    (eventAffinityApply env topo tid cpus dir applied).2 = appliedSet applied tid (cpus.word 0) := by
  rw [eventAffinityApply_fst] at h
  simp [eventAffinityApply, h]

/-! ### The cases of `event_dispatch` -/

/-- The package that an event of a process is handled under; on EXEC the mapped one is dropped
first. -/
def resolved (pc : ProcCache) (cfg : AppConfig) (ev : ProcEvent) : Option (Str × Bool) :=
  (if ev.eventType = eventExec then none else pc.pkgs.lookup ev.pid).or
    ((commToPkg (commStr ev.comm) cfg).map (fun pkg => (pkg, cfg.pkgHasThreadRules pkg)))

/-- Is the event's name trusted? -/
def trusts (ev : ProcEvent) : Bool := if ev.eventType = eventFork then decide (ev.tid = ev.pid) else true

/-- The event types that bind a thread. -/
def Binds (ev : ProcEvent) : Prop :=
  ev.eventType = eventExec ∨ ev.eventType = eventFork ∨ ev.eventType = eventRename

instance (ev : ProcEvent) : Decidable (Binds ev) :=
  inferInstanceAs (Decidable (ev.eventType = eventExec ∨ ev.eventType = eventFork ∨ ev.eventType = eventRename))

theorem Binds.ne_exit {ev : ProcEvent} (h : Binds ev) : ev.eventType ≠ eventExit := by
  rcases h with h | h | h
  all_goals
    rw [h]
    decide

/-- The name that an event's thread is matched under. -/
def eventName (ev : ProcEvent) (p : Str × Bool) : Str := ProcCache.threadName p.2 (trusts ev) (commStr ev.comm)

/-- What one event can do, with its result. -/
inductive DispatchCase (env : Env) (ev : ProcEvent) (cfg : AppConfig) (pc : ProcCache) (applied : AppliedMap) :
    ProcCache × AppliedMap → Prop
  | exit (h : ev.eventType = eventExit) :
      DispatchCase env ev cfg pc applied
        ((if ev.tid = ev.pid then { pc with pkgs := pc.pkgs.erase ev.pid } else pc).taskDel ev.tid,
          appliedDel applied ev.tid)
  | dropped (h : ev.eventType = eventExec) (hr : resolved pc cfg ev = none) :
      DispatchCase env ev cfg pc applied
        (({ pc with pkgs := pc.pkgs.erase ev.pid } : ProcCache).taskDel ev.tid, appliedDel applied ev.tid)
  | unresolved (h : ev.eventType = eventFork ∨ ev.eventType = eventRename) (hr : resolved pc cfg ev = none) :
      DispatchCase env ev cfg pc applied (pc, applied)
  | applied {p : Str × Bool} {pc₁ : ProcCache} {out : Bool × ProcCache × AppliedMap} (h : Binds ev)
      (hr : resolved pc cfg ev = some p) (ht : pc₁.tasks = pc.tasks)
      (hp : ∀ q, pc₁.pkgs.lookup q = if q = ev.pid then some p else pc.pkgs.lookup q)
      (hc : ProcCache.ApplyCase env.createDir pc₁ ev.tid ev.pid p.1 (eventName ev p) cfg
        (eventAffinityApply env cfg.topo) applied out) :
      DispatchCase env ev cfg pc applied out.2
  | ignored (h : ev.eventType ≠ eventExit) (hb : ¬ Binds ev) : DispatchCase env ev cfg pc applied (pc, applied)

/-- The lookup of a binding event answers with `resolved`. -/
theorem pkgLookupComm_fst {ev : ProcEvent} (pc₀ : ProcCache)
    (hp : pc₀.pkgs.lookup ev.pid = if ev.eventType = eventExec then none else pc.pkgs.lookup ev.pid) :
    (pc₀.pkgLookupComm ev.pid (commStr ev.comm) cfg).1 = resolved pc cfg ev := by
  unfold ProcCache.pkgLookupComm resolved
  rw [hp]
  cases (if ev.eventType = eventExec then none else pc.pkgs.lookup ev.pid) with
  | some p => rfl
  | none => cases commToPkg (commStr ev.comm) cfg <;> rfl

/-- `event_apply` of a binding event whose package is resolved. -/
theorem eventApply_resolved (env : Env) (applied : AppliedMap) {ev : ProcEvent} (pc pc₀ : ProcCache)
    {p : Str × Bool} (h : Binds ev)
    (ht : pc₀.tasks = pc.tasks) (hne : ∀ q, q ≠ ev.pid → pc₀.pkgs.lookup q = pc.pkgs.lookup q)
    (hp : pc₀.pkgs.lookup ev.pid = if ev.eventType = eventExec then none else pc.pkgs.lookup ev.pid)
    (hr : resolved pc cfg ev = some p) :
    ∃ out, eventApply env pc₀ applied ev.tid ev.pid (commStr ev.comm) cfg (trusts ev) = (true, out) ∧
      DispatchCase env ev cfg pc applied out := by
  rcases @eventApply_case env cfg pc₀ applied ev.tid ev.pid (commStr ev.comm) (trusts ev) with
    ⟨hn, -⟩ | ⟨p', out, hl, hc, he⟩
  · rw [pkgLookupComm_fst pc₀ hp, hr] at hn
    cases hn
  · have hpp : p' = p := by
      rw [pkgLookupComm_fst pc₀ hp, hr, Option.some.injEq] at hl
      exact hl.symm
    subst hpp
    refine ⟨out.2, he, .applied h hr ((ProcCache.pkgLookupComm_tasks ..).trans ht) (fun q => ?_) hc⟩
    rw [ProcCache.pkgLookupComm_lookup hl]
    split_ifs with hq
    · rfl
    · exact hne q hq

/-- `event_apply` of a binding event that resolves to nothing. -/
theorem eventApply_unresolved {ev : ProcEvent} {pc₀ : ProcCache}
    (hp : pc₀.pkgs.lookup ev.pid = if ev.eventType = eventExec then none else pc.pkgs.lookup ev.pid)
    (hr : resolved pc cfg ev = none) (trust : Bool) :
    eventApply env pc₀ applied ev.tid ev.pid (commStr ev.comm) cfg trust = (false, pc₀, applied) := by
  rcases @eventApply_case env cfg pc₀ applied ev.tid ev.pid (commStr ev.comm) trust with
    ⟨-, he⟩ | ⟨p', out, hl, -, -⟩
  · exact he
  · rw [pkgLookupComm_fst pc₀ hp, hr] at hl
    cases hl

theorem eventDispatch_case (env : Env) (ev : ProcEvent) (cfg : AppConfig) (pc : ProcCache) (applied : AppliedMap) :
    DispatchCase env ev cfg pc applied (eventDispatch env ev cfg pc applied) := by
  unfold eventDispatch
  by_cases hexit : ev.eventType = eventExit
  · simp only [hexit, if_true]
    exact .exit hexit
  simp only [hexit, if_false]
  by_cases hexec : ev.eventType = eventExec
  · have hp : ({ pc with pkgs := pc.pkgs.erase ev.pid } : ProcCache).pkgs.lookup ev.pid =
        if ev.eventType = eventExec then none else pc.pkgs.lookup ev.pid := by
      rw [if_pos hexec]
      exact AList.lookup_erase ev.pid pc.pkgs
    have htr : trusts ev = true := by
      unfold trusts
      rw [hexec]
      rfl
    simp only [hexec, if_true]
    cases hr : resolved pc cfg ev with
    | none =>
        rw [eventApply_unresolved hp hr]
        exact .dropped hexec hr
    | some p =>
        obtain ⟨out, he, hc⟩ := eventApply_resolved env applied pc { pc with pkgs := pc.pkgs.erase ev.pid } (Or.inl hexec) rfl
          (fun q hq => AList.lookup_erase_ne hq) hp hr
        rw [htr] at he
        rw [he]
        exact hc
  have hp : pc.pkgs.lookup ev.pid = if ev.eventType = eventExec then none else pc.pkgs.lookup ev.pid := by
    rw [if_neg hexec]
  simp only [hexec, if_false]
  by_cases hfork : ev.eventType = eventFork
  · have htr : trusts ev = decide (ev.tid = ev.pid) := if_pos hfork
    simp only [hfork, if_true]
    cases hr : resolved pc cfg ev with
    | none =>
        rw [eventApply_unresolved hp hr]
        exact .unresolved (Or.inl hfork) hr
    | some p =>
        obtain ⟨out, he, hc⟩ := eventApply_resolved env applied pc pc (Or.inr (Or.inl hfork)) rfl
          (fun q _ => rfl) hp hr
        rw [htr] at he
        rw [he]
        exact hc
  simp only [hfork, if_false]
  by_cases hren : ev.eventType = eventRename
  · have htr : trusts ev = true := if_neg hfork
    simp only [hren, if_true]
    cases hr : resolved pc cfg ev with
    | none =>
        rw [eventApply_unresolved hp hr]
        exact .unresolved (Or.inr hren) hr
    | some p =>
        obtain ⟨out, he, hc⟩ := eventApply_resolved env applied pc pc (Or.inr (Or.inr hren)) rfl
          (fun q _ => rfl) hp hr
        rw [htr] at he
        rw [he]
        exact hc
  simp only [hren, if_false]
  refine .ignored hexit ?_
  rintro (h | h | h)
  · exact hexec h
  · exact hfork h
  · exact hren h

/-- An event changes `tasks` at its thread only. -/
theorem dispatch_tasks_ne {ev : ProcEvent} {out : ProcCache × AppliedMap} (hc : DispatchCase env ev cfg pc applied out) {t : Tid} (ht : ev.tid ≠ t) :
    out.1.tasks.lookup t = pc.tasks.lookup t := by
  have herase : (pc.tasks.erase ev.tid).lookup t = pc.tasks.lookup t := by
    rw [KeyMap.lookup_erase, if_neg ht.symm]
  cases hc with
  | exit =>
      show ((if ev.tid = ev.pid then { pc with pkgs := pc.pkgs.erase ev.pid } else pc).taskDel ev.tid).tasks.lookup t = _
      rw [ProcCache.taskDel_tasks]
      split_ifs
      · exact herase
      · exact herase
  | dropped =>
      show (ProcCache.taskDel _ ev.tid).tasks.lookup t = _
      rw [ProcCache.taskDel_tasks]
      exact herase
  | unresolved => rfl
  | applied hb hr htasks hp hc =>
      rw [ProcCache.taskApply_lookup_ne hc ht.symm, htasks]
  | ignored => rfl

/-! ### A small device -/

/-- The field that holds the first 16 bytes of a text. -/
def Comm.ofText (text : Str) : Comm :=
  ⟨(Str.utf8 text).take 16 ++ List.replicate (16 - (Str.utf8 text).length) 0, by simp; omega⟩

/-- A configuration with the package `com.a` on the CPUs 0 to 3 of a device with eight. -/
def oneRule : AppConfig :=
  { rules := [{ pkg := "com.a".toList, thread := [], cpus := "0-3".toList, prio := 200, cpusetDir := [] }]
    pkgSet := ⟨["com.a".toList], List.nodup_singleton _⟩, wild := [], mtime := 0, ebpf := true
    topo := ⟨fromRange "0-7".toList, ['0'], false⟩ }

/-- Every thread has exited. -/
def allGone : Env := ⟨fun _ => none, fun _ _ => some esrch, fun _ => false⟩

/-- Every thread is there. -/
def allAlive : Env := ⟨fun _ => none, fun _ _ => none, fun _ => false⟩

end AetherOptExt
