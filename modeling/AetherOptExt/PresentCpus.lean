import AetherOptExt.ConfigInForce

/-! # Present CPUs only

A binding for a CPU that the device does not have is never in effect: the kernel drops such a
CPU from the mask, and `affinity_set`, which compares what the thread has with what the rules
say, sets it again each time.  `parse_cpu_ranges` could leave these CPUs out, but no caller
passes it the present ones; so the answers of `thread_affinity` are present CPUs exactly for the
rules that name no others (`threadAffinity_present_iff`).

Whatever `thread_affinity` guarantees of its answers holds of all entries of the cache, since
`task_apply` records nothing else (`ProcCache.AllCpus`).  The main loop runs `task_apply` in its
scans, its rebuilds and its handling of events, each time under the rules then in force. -/

namespace AetherOptExt

/-- Some CPUs, and all of them present. -/
def CpuTopology.Requestable (topo : CpuTopology) (cpus : CpuSet) : Prop :=
  cpus ≠ CpuSet.new ∧ cpus ⊆ topo.presentCpus

/-- The rules name present CPUs only. -/
def RulesPresent (rules : List Rule) (topo : CpuTopology) : Prop :=
  ∀ r ∈ rules, fromRange r.cpus ⊆ topo.presentCpus

instance (s t : CpuSet) : Decidable (s ⊆ t) := decidable_of_iff (t.or s = t) CpuSet.or_eq_left

instance (rules : List Rule) (topo : CpuTopology) : Decidable (RulesPresent rules topo) :=
  inferInstanceAs (Decidable (∀ r ∈ rules, fromRange r.cpus ⊆ topo.presentCpus))

/-! ### The answers of `thread_affinity` -/

section

variable {cfg : AppConfig} {topo : CpuTopology} {rules : List Rule} {pkg thread : Str}

theorem unionCpus_subset_iff {s : CpuSet} : unionCpus rules ⊆ s ↔ ∀ r ∈ rules, fromRange r.cpus ⊆ s := by
  constructor
  · intro h r hr i hi
    exact h i (isSet_unionCpus.mpr ⟨r, hr, hi⟩)
  · intro h i hi
    obtain ⟨r, hr, hri⟩ := isSet_unionCpus.mp hi
    exact h r hr i hri

theorem mem_of_governing {r : Rule} (h : r ∈ governingRules rules pkg thread) : r ∈ rules := by
  unfold governingRules at h
  split_ifs at h
  · exact (mem_packageRules.mp h).1
  · exact (mem_threadRules.mp h).1

/-- A package-level rule decides for a thread without a name, and a thread rule for one that is
named like its pattern. -/
theorem governs_own_pattern {r : Rule} (h : r ∈ rules) : r ∈ governingRules rules r.pkg r.thread := by
  unfold governingRules
  by_cases ht : r.thread = []
  · rw [ht, threadRules_nil, if_pos rfl]
    exact mem_packageRules.mpr ⟨h, rfl, ht⟩
  · have hm : r ∈ threadRules rules r.pkg r.thread := mem_threadRules.mpr ⟨h, rfl, ht, ht, fnmatch_self ht⟩
    rw [if_neg (List.ne_nil_of_mem hm)]
    exact hm

theorem threadAffinity_requestable {mk : DirCall → Bool} {r : AffinityResult} (ht : topo.presentCpus ≠ CpuSet.new)
    (h : RulesPresent cfg.rules topo) (hr : threadAffinity mk pkg thread cfg topo = some r) :
    topo.Requestable r.cpus := by
  rw [threadAffinity_eq] at hr
  by_cases hempty : unionCpus (governingRules cfg.rules pkg thread) = CpuSet.new
  · rw [if_pos hempty] at hr
    split_ifs at hr
    obtain rfl := Option.some.inj hr
    exact ⟨ht, fun i hi => hi⟩
  · rw [if_neg hempty] at hr
    obtain rfl := Option.some.inj hr
    exact ⟨hempty, unionCpus_subset_iff.mpr fun r hr => h r (mem_of_governing hr)⟩

/-- The answers are present CPUs exactly when all rules name present CPUs. -/
theorem threadAffinity_present_iff (ht : topo.presentCpus ≠ CpuSet.new) :
    (∀ mk pkg thread r, threadAffinity mk pkg thread cfg topo = some r → topo.Requestable r.cpus) ↔
      RulesPresent cfg.rules topo := by
  constructor
  · intro h rule hrule
    by_cases hempty : unionCpus (governingRules cfg.rules rule.pkg rule.thread) = CpuSet.new
    · rw [unionCpus_eq_new.mp hempty rule (governs_own_pattern hrule)]
      intro i hi
      rw [CpuSet.isSet_new] at hi
      cases hi
    · obtain ⟨r, hr, hcpus⟩ := Option.map_eq_some_iff.mp
        (@threadAffinity_cpus (fun _ => false) rule.pkg rule.thread cfg topo hempty)
      have hsub := (h _ _ _ r hr).2
      rw [hcpus] at hsub
      exact unionCpus_subset_iff.mp hsub rule (governs_own_pattern hrule)
  · intro h mk pkg thread r hr
    exact threadAffinity_requestable ht h hr

end

/-- Where the kernel reports present CPUs only, `affinity_set` sets any others each time it is
called. -/
theorem affinitySetRun_absent {env : Env} {tid : Tid} {cpus : CpuSet} {topo : CpuTopology}
    (hk : ∀ c, env.getAffinity tid = some c → c ⊆ topo.presentCpus) (h : ¬ cpus ⊆ topo.presentCpus) (dir : Str) :
    PlaceCall.setAffinity tid cpus ∈ (affinitySetRun env tid cpus dir topo).2 := by
  have hdiffers : (env.getAffinity tid).any (· == cpus) = false := by
    rw [Bool.eq_false_iff]
    intro hany
    obtain ⟨c, hc, heq⟩ := (Option.any_eq_true _ _).mp hany
    exact h (beq_iff_eq.mp heq ▸ hk c hc)
  unfold affinitySetRun
  rw [hdiffers]
  exact List.mem_append_right _ (List.mem_singleton_self _)

/-! ### The entries of the cache -/

namespace ProcCache

/-- All entries have such CPUs. -/
def AllCpus (P : CpuSet → Prop) (pc : ProcCache) : Prop := ∀ t e, pc.tasks.lookup t = some e → P e.cpus

section

variable {P : CpuSet → Prop} {cfg : AppConfig} {pc : ProcCache}

theorem allCpus_new : new.AllCpus P := fun t _ he => absurd (KeyMap.mem_of_lookup he) (AList.notMem_empty t)

/-- Removals keep it. -/
theorem AllCpus.mono (h : pc.AllCpus P) {pc' : ProcCache}
    (hsub : ∀ t e, pc'.tasks.lookup t = some e → pc.tasks.lookup t = some e) : pc'.AllCpus P :=
  fun t e he => h t e (hsub t e he)

theorem AllCpus.erase (h : pc.AllCpus P) (tid : Tid) {pc' : ProcCache} (ht : pc'.tasks = pc.tasks.erase tid) :
    pc'.AllCpus P := by
  refine h.mono fun t e he => ?_
  rw [ht, KeyMap.lookup_erase] at he
  split_ifs at he
  exact he

theorem AllCpus.taskDel (h : pc.AllCpus P) (tid : Tid) : (pc.taskDel tid).AllCpus P :=
  h.erase tid (taskDel_tasks pc tid)

theorem AllCpus.affinitySync (h : pc.AllCpus P) (env : Tid → Env) (topo : CpuTopology) :
    (pc.affinitySync env topo).2.AllCpus P := by
  show ((pc.deadTids env topo).foldl ProcCache.taskDel pc).AllCpus P
  exact List.foldlRecOn _ _ h fun pc h t _ => AllCpus.taskDel h t

variable (hP : ∀ mk pkg name r, threadAffinity mk pkg name cfg cfg.topo = some r → P r.cpus)
include hP

/-- `task_apply` records an answer of `thread_affinity` or nothing. -/
theorem AllCpus.apply (h : pc.AllCpus P) {σ : Type*} {mk : DirCall → Bool} {tid pid : Tid} {pkg name : Str}
    {applyFn : Tid → CpuSet → Str → σ → Bool × σ} {s : σ} {out : Bool × ProcCache × σ}
    (hc : ApplyCase mk pc tid pid pkg name cfg applyFn s out) : out.2.1.AllCpus P := by
  cases hc with
  | unruled => exact h
  | kept => exact h
  | gone => exact h.erase tid rfl
  | @bound r hr =>
      have herased : AllCpus P ⟨pc.pkgs, pc.tasks.erase tid⟩ := h.erase tid rfl
      intro t e he
      rw [KeyMap.lookup_insert] at he
      split_ifs at he
      · obtain rfl := Option.some.inj he
        exact hP _ _ _ r hr
      · exact herased t e he

theorem AllCpus.dispatch (h : pc.AllCpus P) {env : Env} {ev : ProcEvent} {applied : AppliedMap}
    {out : ProcCache × AppliedMap} (hc : DispatchCase env ev cfg pc applied out) : out.1.AllCpus P := by
  cases hc with
  | exit =>
      refine AllCpus.taskDel ?_ ev.tid
      split_ifs
      · exact h.mono fun _ _ he => he
      · exact h
  | dropped =>
      refine AllCpus.taskDel ?_ ev.tid
      exact h.mono fun _ _ he => he
  | unresolved => exact h
  | applied _ _ ht _ hc =>
      refine AllCpus.apply hP (h.mono fun t e he => ?_) hc
      rw [ht] at he
      exact he
  | ignored => exact h

theorem AllCpus.scanProc {acc : ProcCache × AppliedMap} (h : acc.1.AllCpus P) (t : ScanTarget) :
    (scanProc cfg acc t).1.AllCpus P := by
  unfold AetherOptExt.scanProc
  cases t.tids with
  | none => exact h
  | some tids =>
      have hfold : (tids.foldl (scanTask cfg t.pid t.pkg t.htr) acc).1.AllCpus P :=
        List.foldlRecOn (motive := fun acc : ProcCache × AppliedMap => acc.1.AllCpus P) _ _ h
          fun acc h x _ => AllCpus.apply hP h (taskApply_case ..)
      exact hfold.mono fun _ _ he => he

theorem allCpus_fullScan (dir : Option (List ProcReading)) (applied : AppliedMap) :
    (fullScan cfg dir pc applied).1.AllCpus P := by
  unfold fullScan
  cases dir with
  | none => exact allCpus_new
  | some entries =>
      exact List.foldlRecOn (motive := fun acc : ProcCache × AppliedMap => acc.1.AllCpus P) _ _ allCpus_new
        fun acc h t _ => AllCpus.scanProc hP h t

theorem AllCpus.syncTarget {acc : Rebuild} (h : acc.cache.AllCpus P) (t : ScanTarget) :
    (syncTarget cfg acc t).cache.AllCpus P := by
  unfold AetherOptExt.syncTarget
  cases t.tids with
  | none => exact h
  | some tids =>
      have hfold : (tids.foldl (syncTask cfg t.pid t.pkg t.htr) (acc.cache, false)).1.AllCpus P :=
        List.foldlRecOn (motive := fun acc : ProcCache × Bool => acc.1.AllCpus P) _ _ h
          fun acc h x _ => AllCpus.apply hP h (taskApply_case ..)
      dsimp only
      split_ifs
      · exact hfold.mono fun _ _ he => he
      · exact hfold

theorem AllCpus.syncEntry {scanAll : Bool} {tracked : KeySet Tid} {acc : Rebuild} (h : acc.cache.AllCpus P)
    (r : ProcReading) : (syncEntry cfg scanAll tracked acc r).cache.AllCpus P := by
  unfold AetherOptExt.syncEntry
  cases r.pid with
  | none => exact h
  | some pid =>
      dsimp only
      split_ifs
      · exact h
      · cases scanTarget cfg r with
        | none => exact h
        | some t =>
            have hcounted : ({ acc with currentTotal := acc.currentTotal + 1 } : Rebuild).cache.AllCpus P := h
            exact AllCpus.syncTarget hP hcounted t

theorem AllCpus.procCacheSync {state : ProcState} (h : state.cache.AllCpus P) (snap : ProcSnapshot) :
    (procCacheSync state cfg snap).2.cache.AllCpus P := by
  have hcount : (syncCount state snap.procs).2.cache.AllCpus P := by
    rw [(ProcState.syncCount_cache state snap.procs).1]
    exact h
  unfold AetherOptExt.procCacheSync
  dsimp only
  split_ifs
  · exact hcount
  · exact List.foldlRecOn (motive := fun acc : Rebuild => acc.cache.AllCpus P) _ _ allCpus_new
      fun acc h r _ => AllCpus.syncEntry hP h r

end

end ProcCache

/-! ### The main loop -/

namespace MainLoop

/-- The parts of a round that ask `thread_affinity` do so under rules that name present CPUs. -/
def AsksPresent (s : MainLoop) : LoopInput → Prop
  | .fullScan _ => RulesPresent s.cfg.rules s.cfg.topo
  | .procSync _ => RulesPresent s.cfg.rules s.cfg.topo
  | .dispatch .. => RulesPresent s.cfg.rules s.cfg.topo
  | _ => True

instance (s : MainLoop) : ∀ a, Decidable (s.AsksPresent a)
  | .fullScan _ => inferInstanceAs (Decidable (RulesPresent s.cfg.rules s.cfg.topo))
  | .procSync _ => inferInstanceAs (Decidable (RulesPresent s.cfg.rules s.cfg.topo))
  | .dispatch .. => inferInstanceAs (Decidable (RulesPresent s.cfg.rules s.cfg.topo))
  | .readInotify .. => inferInstanceAs (Decidable True)
  | .metadata .. => inferInstanceAs (Decidable True)
  | .idle => inferInstanceAs (Decidable True)
  | .disconnected => inferInstanceAs (Decidable True)
  | .correct .. => inferInstanceAs (Decidable True)
  | .affinity .. => inferInstanceAs (Decidable True)
  | .allocate _ => inferInstanceAs (Decidable True)

/-- The device has CPUs, and all entries are for CPUs that it has. -/
structure PresentOnly (topo : CpuTopology) (s : MainLoop) : Prop where
  same : s.cfg.topo = topo
  present : topo.presentCpus ≠ CpuSet.new
  entries : s.proc.cache.AllCpus topo.Requestable

variable {d : Device} {topo : CpuTopology} {s : MainLoop}

theorem hotReload_topo {r : Reload} {cfg cfg' : AppConfig} (h : hotReload d r cfg = some cfg') :
    cfg'.topo = cfg.topo := by
  unfold hotReload at h
  obtain ⟨c, hc, rfl⟩ := Option.map_eq_some_iff.mp h
  unfold AppConfig.load at hc
  simp only [Option.bind_eq_bind, Option.bind_eq_some_iff] at hc
  obtain ⟨l, -, mt, -, hc⟩ := hc
  obtain rfl := Option.some.inj hc
  rfl

theorem autoAllocate_topo {x : Allocation} {cfg cfg' : AppConfig} (h : autoAllocate d x cfg = some cfg') :
    cfg'.topo = cfg.topo := by
  unfold autoAllocate at h
  dsimp only at h
  split at h
  · cases h
  · obtain rfl := Option.some.inj h
    rfl

theorem PresentOnly.reload (h : s.PresentOnly topo) (r : Reload) : (s.reload d r).PresentOnly topo := by
  unfold MainLoop.reload
  cases hr : hotReload d r s.cfg with
  | none => exact ⟨h.same, h.present, h.entries⟩
  | some cfg => exact ⟨(hotReload_topo hr).trans h.same, h.present, h.entries⟩

/-- What `thread_affinity` answers under the rules in force. -/
theorem PresentOnly.answers (h : s.PresentOnly topo) (hr : RulesPresent s.cfg.rules s.cfg.topo) :
    ∀ mk pkg name r, threadAffinity mk pkg name s.cfg s.cfg.topo = some r → topo.Requestable r.cpus := by
  intro mk pkg name r ha
  rw [h.same] at hr ha
  exact threadAffinity_requestable h.present hr ha

theorem PresentOnly.effect (h : s.PresentOnly topo) {a : LoopInput} (hok : s.AsksPresent a) :
    (s.effect d a).PresentOnly topo := by
  cases a with
  | readInotify ev r rewatched =>
      have hs : PresentOnly topo { s with configChanged := false, place := .compare } := ⟨h.same, h.present, h.entries⟩
      have hreload := hs.reload (d := d) r
      show (s.readInotify d ev r rewatched).PresentOnly topo
      unfold MainLoop.readInotify
      dsimp only
      split
      · exact hreload
      · exact ⟨hreload.same, hreload.present, hreload.entries⟩
      · exact hs
  | metadata mtime r =>
      unfold MainLoop.effect
      dsimp only
      split_ifs
      · have hreload := h.reload (d := d) r
        exact ⟨hreload.same, hreload.present, hreload.entries⟩
      · exact ⟨h.same, h.present, h.entries⟩
  | fullScan dir =>
      unfold MainLoop.effect
      dsimp only
      split_ifs
      · exact ⟨h.same, h.present, ProcCache.allCpus_fullScan (h.answers hok) dir s.applied⟩
      · exact ⟨h.same, h.present, h.entries⟩
  | procSync snap =>
      refine ⟨h.same, h.present, ProcCache.AllCpus.procCacheSync (h.answers hok) ?_ snap⟩
      split_ifs
      · exact h.entries
      · exact h.entries
  | dispatch env ev =>
      exact ⟨h.same, h.present, ProcCache.AllCpus.dispatch (h.answers hok) h.entries
        (eventDispatch_case env ev s.cfg s.proc.cache s.applied)⟩
  | idle => exact ⟨h.same, h.present, h.entries⟩
  | disconnected => exact ⟨h.same, h.present, h.entries⟩
  | correct elapsed env =>
      unfold MainLoop.effect
      dsimp only
      split_ifs
      · exact ⟨h.same, h.present, h.entries.affinitySync env s.cfg.topo⟩
      · exact ⟨h.same, h.present, h.entries⟩
  | affinity elapsed env =>
      unfold MainLoop.effect
      dsimp only
      split_ifs
      · exact ⟨h.same, h.present, h.entries.affinitySync env s.cfg.topo⟩
      · exact ⟨h.same, h.present, h.entries⟩
  | allocate x =>
      unfold MainLoop.effect
      dsimp only
      split_ifs
      · cases hx : autoAllocate d x s.cfg with
        | none => exact ⟨h.same, h.present, h.entries⟩
        | some cfg => exact ⟨(autoAllocate_topo hx).trans h.same, h.present, h.entries⟩
      · exact ⟨h.same, h.present, h.entries⟩

/-- **Only present CPUs are requested**, exactly under rules that name no others: these are the
answers of `thread_affinity`, and the entries of the cache in every run of the main loop that
asks for them under such rules only. -/
theorem present_cpus_only (d : Device) :
    (∀ (cfg : AppConfig) (topo : CpuTopology), topo.presentCpus ≠ CpuSet.new →
      ((∀ mk pkg thread r, threadAffinity mk pkg thread cfg topo = some r →
        r.cpus ≠ CpuSet.new ∧ r.cpus ⊆ topo.presentCpus) ↔
      ∀ rule ∈ cfg.rules, fromRange rule.cpus ⊆ topo.presentCpus)) ∧
    ∀ s : MainLoop, Runs.Reachable (step d) AsksPresent (fun s => Init s ∧ s.cfg.topo.presentCpus ≠ CpuSet.new) s →
      ∀ t e, s.proc.cache.tasks.lookup t = some e → e.cpus ≠ CpuSet.new ∧ e.cpus ⊆ s.cfg.topo.presentCpus := by
  refine ⟨fun cfg topo ht => threadAffinity_present_iff ht, fun s ⟨s₀, ⟨h₀, ht⟩, hr⟩ => ?_⟩
  have hfirst : s₀.PresentOnly s₀.cfg.topo := by
    refine ⟨rfl, ht, ?_⟩
    rw [h₀.proc]
    exact ProcCache.allCpus_new
  have hs : s.PresentOnly s₀.cfg.topo := by
    refine hr.invariant (I := fun s => s.PresentOnly s₀.cfg.topo) (fun s a s' hI hok hstep => ?_) hfirst
    obtain ⟨-, rfl⟩ := step_eq_some.mp hstep
    exact hI.effect hok
  rw [hs.same]
  exact hs.entries

/-- A first round in which the rule names present CPUs. -/
theorem present_cpus_only_first :
    ∃ s, Runs.Steps (step phone) AsksPresent (entered true) s ∧
      (∃ e, s.proc.cache.tasks.lookup 10 = some e) ∧
      ∀ t e, s.proc.cache.tasks.lookup t = some e → e.cpus ≠ CpuSet.new ∧ e.cpus ⊆ s.cfg.topo.presentCpus := by
  obtain ⟨s, hs, hp⟩ := Runs.exists_checkedRun (step phone) AsksPresent (entered true) firstRound
    (fun s => (s.proc.cache.tasks.lookup 10).isSome) (by decide +kernel)
  refine ⟨s, hs, Option.isSome_iff_exists.mp hp, ?_⟩
  exact (present_cpus_only phone).2 s ⟨_, ⟨init_entered true, by decide +kernel⟩, hs⟩

/-- A rule for the CPUs 8 to 11 of a device with eight. -/
def absentRule : AppConfig :=
  { oneRule with
    rules := [{ pkg := "com.a".toList, thread := [], cpus := "8-11".toList, prio := 200, cpusetDir := [] }] }

/-- Its thread is bound to CPUs that are not there, again and again. -/
theorem absent_cpu_requested :
    ∃ s, Runs.run (step phone) { entered true with cfg := absentRule } firstRound = some s ∧
      s.cfg.topo.presentCpus ≠ CpuSet.new ∧
      ∃ e, s.proc.cache.tasks.lookup 10 = some e ∧ ¬ e.cpus ⊆ s.cfg.topo.presentCpus ∧
        ∀ env : Env, (∀ c, env.getAffinity 10 = some c → c ⊆ s.cfg.topo.presentCpus) →
          .setAffinity 10 e.cpus ∈ (affinitySetRun env 10 e.cpus e.cpusetDir s.cfg.topo).2 := by
  obtain ⟨s, hs, hp⟩ := Runs.exists_run (step phone) { entered true with cfg := absentRule } firstRound
    (fun s => decide (s.cfg.topo.presentCpus ≠ CpuSet.new) &&
      (s.proc.cache.tasks.lookup 10).any (fun e => decide (¬ e.cpus ⊆ s.cfg.topo.presentCpus))) (by decide +kernel)
  rw [Bool.and_eq_true, decide_eq_true_eq, Option.any_eq_true] at hp
  obtain ⟨hsome, e, he, habsent⟩ := hp
  have habsent := of_decide_eq_true habsent
  exact ⟨s, hs, hsome, e, he, habsent, fun env hk => affinitySetRun_absent hk habsent e.cpusetDir⟩

end MainLoop

end AetherOptExt
