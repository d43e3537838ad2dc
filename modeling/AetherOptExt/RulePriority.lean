import AetherOptExt.AutoAllocation
import AetherOptExt.CacheMerge

/-! # The priority of thread rules

The README orders the rules that match a thread by a weight and binds the thread by the
heaviest.  `rule_prio` computes that weight and every rule carries it, but only `scan_one_pid`
compares weights, and nothing calls it: the daemon asks `thread_affinity`, whose comment says
that the CPUs of the matching thread rules are accumulated.

So a rule that outweighs all others decides for `scan_one_pid` (`bestCpus_of_heaviest`), while
`thread_affinity` adds the CPUs of the others; the two agree exactly when the others name no
further CPU (`thread_affinity_priority`). -/

namespace AetherOptExt

/-! ### The scan of one process (`process.rs`) -/

/-- `pkg_matches`: the pattern matches the name, or the name is the pattern with a process
suffix. -/
def pkgMatches (pat name : Str) : Bool :=
  fnmatch pat name ||
    (decide (Str.byteLen pat < Str.byteLen name) &&
      (Str.utf8 name)[Str.byteLen pat]? == some (UInt8.ofNat ':'.toNat) && pat.isPrefixOf name)

/-- One rule of the loop: the best CPUs so far and their weight. -/
def bestStep (pkg comm : Str) (acc : CpuSet × ℤ) (r : Rule) : CpuSet × ℤ :=
  if !pkgMatches r.pkg pkg then acc
  else if r.thread.isEmpty then
    if 200 > acc.2 then (fromRange r.cpus, 200) else acc
  else if fnmatch r.thread comm && r.prio > acc.2 then (fromRange r.cpus, r.prio)
  else acc

/-- The CPUs that the loop over the rules selects for a thread. -/
def bestCpus (rules : List Rule) (pkg comm : Str) : CpuSet := (rules.foldl (bestStep pkg comm) (CpuSet.new, -1)).1

/-- What `scan_one_pid` reads of a process. -/
structure PidReading where
  cmdline : Option Str
  task : Option (List (Tid × Option Str))

/-- A process with the CPUs selected for its threads. -/
structure ScannedApp where
  pid : Tid
  pkg : Str
  threads : List (Tid × Str × CpuSet)

/-- `scan_one_pid`. -/
def scanOnePid (rules : List Rule) (set : KeySet Str) (wild : List Str) (pid : Tid) (r : PidReading) :
    Option ScannedApp := do
  let cl ← if pid.toInt < minUserPid then none else r.cmdline
  let pkg := splitFirst '\x00' cl
  let basePkg := splitFirst ':' pkg
  let pass := decide (pkg ∈ set) || decide (basePkg ∈ set) || wild.any (fun w => fnmatch w pkg) ||
    wild.any (fun w => pkgMatches w pkg)
  let th := (r.task.getD []).map (fun t =>
    let comm := Str.trim (t.2.getD [])
    (t.1, comm, bestCpus rules pkg comm))
  if pkg.isEmpty || !pass || th.isEmpty then none else some ⟨pid, pkg, th⟩

/-! ### Weights -/

/-- Every rule carries its weight. -/
def Weighted (rules : List Rule) : Prop := ∀ r ∈ rules, r.prio = rulePrio r.thread

theorem rulePrio_nonneg (pat : Str) : 0 ≤ rulePrio pat := by
  unfold rulePrio
  dsimp only
  split_ifs <;> omega

theorem Weighted.append {rules rules' : List Rule} (h : Weighted rules) (h' : Weighted rules') :
    Weighted (rules ++ rules') := by
  intro r hr
  rcases List.mem_append.mp hr with hr | hr
  · exact h r hr
  · exact h' r hr

/-- The rules made of one entry, whatever their CPUs and directory. -/
theorem weighted_entry (pkg other dir : Str) (comm : List (Str × Str)) :
    Weighted ({ pkg := pkg, thread := [], cpus := other, prio := 200, cpusetDir := dir } ::
      comm.map (commRule pkg)) := by
  intro r hr
  rcases List.mem_cons.mp hr with rfl | hr
  · rfl
  · obtain ⟨cn, -, rfl⟩ := List.mem_map.mp hr
    rfl

theorem Weighted.loadEntry {mk : ℕ → DirCall → Bool} {topo : CpuTopology} {acc : Loaded} (h : Weighted acc.rules)
    (e : JsonValue) : Weighted (loadEntry mk topo acc e).rules := by
  unfold AetherOptExt.loadEntry
  cases entryPackages e with
  | nil => exact h
  | cons first rest => exact h.append (weighted_entry _ _ _ _)

/-- A loaded configuration carries the weights. -/
theorem weighted_load {parse : Str → Option JsonValue} {mk : ℕ → DirCall → Bool} {topo : CpuTopology}
    {data : Option Str} {mtime : Option ℕ} {cfg : AppConfig} (h : AppConfig.load parse mk topo data mtime = some cfg) :
    Weighted cfg.rules := by
  unfold AppConfig.load loadParse at h
  simp only [Option.bind_eq_bind, Option.bind_eq_some_iff] at h
  obtain ⟨l, ⟨text, -, root, -, er, -, hl⟩, mt, -, hc⟩ := h
  obtain rfl := Option.some.inj hl
  obtain rfl := Option.some.inj hc
  exact List.foldlRecOn (motive := fun acc : Loaded => Weighted acc.rules) _ _
    (fun r hr => absurd hr List.not_mem_nil) fun acc hacc e _ => hacc.loadEntry e

/-- Merging a cache keeps them. -/
theorem Weighted.mergeCache {parse : Str → Option JsonValue} {data : Option Str} {cfg : AppConfig}
    (h : Weighted cfg.rules) : Weighted (cfg.mergeCache parse data).rules := by
  rw [mergeCache_rules]
  refine h.append fun r hr => ?_
  obtain ⟨e, -, hr⟩ := List.mem_flatMap.mp hr
  unfold cacheRules at hr
  cases hp : entryPackages e with
  | nil => simp [hp] at hr
  | cons first rest =>
      rw [hp] at hr
      exact weighted_entry first _ [] _ r hr

/-! ### The heaviest rule -/

variable {pkg thread : Str} {rules : List Rule} {r : Rule}

/-- Rules that are no heavier change nothing. -/
theorem foldl_bestStep_of_le : ∀ {rules : List Rule} {acc : CpuSet × ℤ},
    (∀ u ∈ rules, u.thread ≠ [] ∧ u.prio ≤ acc.2) → rules.foldl (bestStep pkg thread) acc = acc
  | [], _, _ => rfl
  | u :: rules, acc, h => by
      obtain ⟨hu, hle⟩ := h u List.mem_cons_self
      have hstep : bestStep pkg thread acc u = acc := by
        have hnot : ¬ (fnmatch u.thread thread && decide (u.prio > acc.2)) = true := by
          rw [Bool.and_eq_true, decide_eq_true_eq]
          omega
        unfold bestStep
        rw [if_neg (show ¬ u.thread.isEmpty = true by simpa using hu), if_neg hnot, ite_self]
      rw [List.foldl_cons, hstep]
      exact foldl_bestStep_of_le fun v hv => h v (List.mem_cons_of_mem u hv)

/-- A rule that matches and outweighs all others is selected. -/
theorem foldl_bestStep_of_heaviest (hpkg : pkgMatches r.pkg pkg = true) (hne : r.thread ≠ [])
    (hmatch : fnmatch r.thread thread = true) : ∀ {rules : List Rule} {acc : CpuSet × ℤ}, r ∈ rules →
    (∀ u ∈ rules, u.thread ≠ [] ∧ (u ≠ r → u.prio < r.prio)) → acc.2 < r.prio →
    rules.foldl (bestStep pkg thread) acc = (fromRange r.cpus, r.prio)
  | u :: rules, acc, hr, h, hacc => by
      obtain ⟨hu, hlt⟩ := h u List.mem_cons_self
      have htail : ∀ v ∈ rules, v.thread ≠ [] ∧ (v ≠ r → v.prio < r.prio) :=
        fun v hv => h v (List.mem_cons_of_mem u hv)
      rw [List.foldl_cons]
      by_cases he : u = r
      · subst he
        have hstep : bestStep pkg thread acc u = (fromRange u.cpus, u.prio) := by
          unfold bestStep
          rw [if_neg (by simp [hpkg]), if_neg (by simpa using hu), if_pos]
          simpa [hmatch] using hacc
        rw [hstep]
        refine foldl_bestStep_of_le fun v hv => ⟨(htail v hv).1, ?_⟩
        by_cases hv' : v = u
        · rw [hv']
        · exact ((htail v hv).2 hv').le
      · have hr' : r ∈ rules := (List.mem_cons.mp hr).resolve_left (Ne.symm he)
        refine foldl_bestStep_of_heaviest hpkg hne hmatch hr' htail ?_
        -- the weight so far stays below: it is the old one or that of `u`
        unfold bestStep
        rw [if_neg (show ¬ u.thread.isEmpty = true by simpa using hu)]
        split_ifs
        · exact hacc
        · exact hlt he
        · exact hacc

/-- The heaviest of the matching thread rules is what `scan_one_pid` selects among them. -/
theorem bestCpus_of_heaviest (hpkg : pkg ≠ []) (hw : Weighted rules) (hr : r ∈ threadRules rules pkg thread)
    (hmax : ∀ u ∈ threadRules rules pkg thread, u ≠ r → rulePrio u.thread < rulePrio r.thread) :
    bestCpus (threadRules rules pkg thread) pkg thread = fromRange r.cpus := by
  obtain ⟨hmem, hp, hne, -, hmatch⟩ := mem_threadRules.mp hr
  have hpos := rulePrio_nonneg r.thread
  have hpm : pkgMatches r.pkg pkg = true := by
    unfold pkgMatches
    rw [hp, fnmatch_self hpkg, Bool.true_or]
  unfold bestCpus
  rw [foldl_bestStep_of_heaviest hpm hne hmatch hr ?_ ?_]
  · intro u hu
    obtain ⟨humem, -, hune, -⟩ := mem_threadRules.mp hu
    refine ⟨hune, fun he => ?_⟩
    rw [hw u humem, hw r hmem]
    exact hmax u hu he
  · rw [hw r hmem]
    show (-1 : ℤ) < _
    omega

/-- **Which of the matching thread rules bind a thread.**  All of them do; the heaviest alone, the
one that `scan_one_pid` selects, exactly when the others name no further CPU. -/
theorem thread_affinity_priority (mk : DirCall → Bool) (cfg : AppConfig) (topo : CpuTopology) (pkg thread : Str)
    (r : Rule) (hr : r ∈ threadRules cfg.rules pkg thread)
    (hmax : ∀ u ∈ threadRules cfg.rules pkg thread, u ≠ r → rulePrio u.thread < rulePrio r.thread)
    (hcpus : fromRange r.cpus ≠ CpuSet.new) :
    (∃ a, threadAffinity mk pkg thread cfg topo = some a ∧ a.isThreadRule = true ∧
      (∀ i, a.cpus.isSet i = true ↔ ∃ u ∈ threadRules cfg.rules pkg thread, (fromRange u.cpus).isSet i = true) ∧
      (a.cpus = fromRange r.cpus ↔
        ∀ u ∈ threadRules cfg.rules pkg thread, fromRange u.cpus ⊆ fromRange r.cpus)) ∧
    (pkg ≠ [] → Weighted cfg.rules → bestCpus (threadRules cfg.rules pkg thread) pkg thread = fromRange r.cpus) := by
  refine ⟨?_, fun hpkg hw => bestCpus_of_heaviest hpkg hw hr hmax⟩
  have hbind := threadAffinity_binding mk pkg thread cfg topo
  rw [binding_of_thread_rule hr hcpus, Option.map_eq_some_iff] at hbind
  obtain ⟨a, ha, hab⟩ := hbind
  obtain ⟨hac, haf⟩ := Prod.mk.inj hab
  refine ⟨a, ha, haf, fun i => ?_, ?_⟩
  · rw [hac]
    exact isSet_unionCpus
  · rw [hac]
    exact unionCpus_eq_iff hr

/-- An exact rule and a star rule for one thread. -/
def overlapping : List Rule :=
  [commRule "com.a".toList ("7".toList, "RenderThread".toList), commRule "com.a".toList ("4-6".toList, "Render*".toList)]

/-- The heavier rule names CPU 7; the thread is bound to 4 to 7. -/
theorem star_rule_adds_cpus :
    let cfg := { oneRule with rules := overlapping }
    let r := commRule "com.a".toList ("7".toList, "RenderThread".toList)
    r ∈ threadRules cfg.rules "com.a".toList "RenderThread".toList ∧
      (∀ u ∈ threadRules cfg.rules "com.a".toList "RenderThread".toList, u ≠ r →
        rulePrio u.thread < rulePrio r.thread) ∧
      fromRange r.cpus ≠ CpuSet.new ∧
      ((threadAffinity (fun _ => false) "com.a".toList "RenderThread".toList cfg cfg.topo).map AffinityResult.cpus =
        some (fromRange "4-7".toList)) ∧
      fromRange "4-7".toList ≠ fromRange r.cpus ∧
      bestCpus cfg.rules "com.a".toList "RenderThread".toList = fromRange r.cpus := by
  decide +kernel

theorem thread_affinity_priority_overlapping :
    let cfg := { oneRule with rules := overlapping }
    ∃ a, threadAffinity (fun _ => false) "com.a".toList "RenderThread".toList cfg cfg.topo = some a ∧
      a.isThreadRule = true := by
  obtain ⟨⟨a, ha, hf, -⟩, -⟩ := thread_affinity_priority (fun _ => false) { oneRule with rules := overlapping }
    oneRule.topo "com.a".toList "RenderThread".toList (commRule "com.a".toList ("7".toList, "RenderThread".toList))
    (by decide +kernel) (by decide +kernel) (by decide +kernel)
  exact ⟨a, ha, hf⟩

end AetherOptExt
