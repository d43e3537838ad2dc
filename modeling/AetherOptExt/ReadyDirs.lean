import AetherOptExt.PlacedDaemon
import AetherOptExt.DirectoryFit

/-! # Directories that are there

`ensure_cpuset_dir` hands out a name only when the directory could be made, so the directories that
the rules of a loaded file name, and those that answers of `thread_affinity` name, are there when
they are named (`rulesReady_loadIn`, `hasDir_threadAffinity`).  `HasDir` says so of one directory:
it has the CPUs that its name stands for, and memory nodes.  Later creations keep it
(`HasDir.ensure`), and a thread that is put into it gets its mask (`HasDir.settled_mask`). -/

namespace AetherOptExt

open CpuSet ProcCache Placement

/-! ### Directories that are there -/

/-- The directory of a set is there, with its CPUs and with memory nodes. -/
structure HasDir (tree : CpusetTree) (dir : Str) (cpus : CpuSet) : Prop where
  name : dir = cpus.toRangeString
  some_cpu : cpus ≠ CpuSet.new
  made : ∃ c, tree.lookup (baseCpuset ++ '/' :: dir) = some c ∧ c.cpus = cpus ∧ c.mems ≠ []

/-- A creation keeps it. -/
theorem HasDir.ensure {tree : CpusetTree} {dir : Str} {cpus : CpuSet} (h : HasDir tree dir cpus) (fs : FsAnswers)
    (cpus' : CpuSet) (topo : CpuTopology) : HasDir (ensureCpusetDirIn fs tree cpus' topo).2 dir cpus := by
  obtain ⟨hname, hne, c, hc, hcpus, hmems⟩ := h
  subst hname
  obtain ⟨c', hc', he, hkeep⟩ := ensureCpusetDirIn_keeps fs cpus' topo hc fun hk _ => hcpus.trans (subdir_eq_dirKey hk)
  exact ⟨rfl, hne, c', hc', he.trans hcpus, hkeep hmems⟩

/-- A name that is handed out is that of a directory that is there. -/
theorem hasDir_ensure {fs : FsAnswers} {tree : CpusetTree} {cpus : CpuSet} {topo : CpuTopology} (hm : topo.memsStr ≠ [])
    (h : (ensureCpusetDirIn fs tree cpus topo).1 ≠ []) :
    HasDir (ensureCpusetDirIn fs tree cpus topo).2 (ensureCpusetDirIn fs tree cpus topo).1 cpus := by
  obtain ⟨hdir, hne, c, hl, hcpus, hmems⟩ := ensureCpusetDirIn_spec h
  exact ⟨hdir, hne, c, by rw [hdir]; exact hl, hcpus, by rw [hmems hm]; exact hm⟩

/-- The kernel takes a thread it allows into such a directory, whose CPUs are the set. -/
theorem HasDir.accepts {tree : CpusetTree} {dir : Str} {cpus : CpuSet} (h : HasDir tree dir cpus)
    {allow : Tid → Str → Bool} {tid : Tid} (ha : allow tid (tasksGroup dir) = true) :
    accepts allow tree tid (tasksGroup dir) = true ∧ groupCpus tree (tasksGroup dir) = cpus := by
  obtain ⟨hname, hne, c, hc, hcpus, hmems⟩ := h
  have hdir : dir ≠ [] := by
    rw [hname]
    exact fun he => hne (toRangeString_eq_nil.mp he)
  have hgroup : tasksGroup dir = baseCpuset ++ '/' :: dir := if_neg (by simpa using hdir)
  rw [hgroup] at ha ⊢
  refine ⟨(Option.any_eq_true _ _).mpr ⟨c, hc, ?_⟩, ?_⟩
  · rw [ha, hcpus, decide_eq_true hne, decide_eq_true hmems]
    rfl
  · unfold groupCpus
    rw [hc]
    exact hcpus

/-- A live thread that is put into such a directory has the mask. -/
theorem HasDir.settled_mask {tree : CpusetTree} {dir : Str} {cpus : CpuSet} (h : HasDir tree dir cpus)
    {allow : Tid → Str → Bool} {topo : CpuTopology} (hon : topo.cpusetEnabled = true) {tid : Tid}
    (ha : allow tid (tasksGroup dir) = true) (x : Standing) : (settled allow topo tree tid dir cpus x).mask = cpus := by
  obtain ⟨hacc, hcpus⟩ := h.accepts ha
  rw [settled_mask_iff]
  refine Or.inr ⟨h.some_cpu, ?_⟩
  have hgroup : allowedCpus allow topo tree tid dir x = cpus := by
    unfold allowedCpus moved
    rw [if_pos (by rw [hon, hacc]; rfl)]
    exact hcpus
  rw [hgroup]
  exact fun _ hi => hi

/-! ### What `thread_affinity` leaves in the tree -/

/-- The directories that the rules name are there. -/
def RulesReady (topo : CpuTopology) (rules : List Rule) (tree : CpusetTree) : Prop :=
  ∀ r ∈ rules, r.cpusetDir ≠ [] → topo.cpusetEnabled = true ∧ HasDir tree r.cpusetDir (fromRange r.cpus)

section

variable {fs : FsAnswers} {tree : CpusetTree} {cfg : AppConfig} {pkg thread : Str}

/-- The calls that `thread_affinity` makes: those for the matching thread rules, else for the first
package-level rule. -/
theorem threadAffinityRun_calls (mk : DirCall → Bool) (pkg thread : Str) (cfg : AppConfig) (topo : CpuTopology) :
    (threadAffinityRun mk pkg thread cfg topo).2 =
      if threadRules cfg.rules pkg thread = [] then
        ((packageRules cfg.rules pkg).head?.map (fun r => (ruleDir mk topo r).2)).getD []
      else (ensureCpusetDir mk (unionCpus (threadRules cfg.rules pkg thread)) topo).2 := by
  have hm := threadLoop_eq cfg.rules pkg thread
  unfold threadAffinityRun
  simp only [hm]
  by_cases hT : threadRules cfg.rules pkg thread = []
  · simp only [hT, bne_self_eq_false, Bool.false_eq_true, if_false, if_true, unionCpus_nil,
      (foldl_fallbackStep_dir mk topo pkg cfg.rules).2]
    split_ifs <;> rfl
  · have hb : (threadRules cfg.rules pkg thread != []) = true := by simpa using hT
    simp only [hT, hb, if_true, if_false]
    split_ifs <;> rfl

theorem createAll_ensure (fs : FsAnswers) (tree : CpusetTree) (cpus : CpuSet) (topo : CpuTopology) :
    createAll fs tree (ensureCpusetDir (answers fs tree) cpus topo).2 = (ensureCpusetDirIn fs tree cpus topo).2 := by
  unfold ensureCpusetDir ensureCpusetDirIn
  split_ifs <;> rfl

theorem ensureCpusetDir_enabled {mk : DirCall → Bool} {cpus : CpuSet} {topo : CpuTopology}
    (h : (ensureCpusetDir mk cpus topo).1 ≠ []) : topo.cpusetEnabled = true := by
  unfold ensureCpusetDir at h
  split_ifs at h with hoff
  · exact absurd rfl h
  · simpa using hoff

/-- A directory that is asked for in a tree, and given, is there afterwards. -/
theorem hasDir_answered {topo : CpuTopology} (hm : topo.memsStr ≠ []) {cpus : CpuSet}
    (h : (ensureCpusetDir (answers fs tree) cpus topo).1 ≠ []) :
    topo.cpusetEnabled = true ∧
      HasDir (createAll fs tree (ensureCpusetDir (answers fs tree) cpus topo).2)
        (ensureCpusetDir (answers fs tree) cpus topo).1 cpus := by
  refine ⟨ensureCpusetDir_enabled h, ?_⟩
  have hfst : (ensureCpusetDirIn fs tree cpus topo).1 = (ensureCpusetDir (answers fs tree) cpus topo).1 :=
    ensureCpusetDirIn_fst fs tree cpus topo
  rw [createAll_ensure, ← hfst]
  exact hasDir_ensure hm (by rw [hfst]; exact h)

/-- The tree after the directory of a set, or after none. -/
theorem made_cases (fs : FsAnswers) (tree : CpusetTree) (pkg thread : Str) (cfg : AppConfig) :
    createAll fs tree (threadAffinityRun (answers fs tree) pkg thread cfg cfg.topo).2 = tree ∨
      ∃ cpus, createAll fs tree (threadAffinityRun (answers fs tree) pkg thread cfg cfg.topo).2 =
        (ensureCpusetDirIn fs tree cpus cfg.topo).2 := by
  rw [threadAffinityRun_calls]
  split_ifs with hT
  · match hP : packageRules cfg.rules pkg with
    | [] => exact Or.inl rfl
    | r :: rest =>
        show createAll fs tree (ruleDir (answers fs tree) cfg.topo r).2 = tree ∨ ∃ cpus,
          createAll fs tree (ruleDir (answers fs tree) cfg.topo r).2 = (ensureCpusetDirIn fs tree cpus cfg.topo).2
        unfold ruleDir
        split_ifs
        · exact Or.inr ⟨_, createAll_ensure fs tree _ cfg.topo⟩
        · exact Or.inl rfl
  · exact Or.inr ⟨_, createAll_ensure fs tree _ cfg.topo⟩

/-- `thread_affinity` keeps the directories that are there. -/
theorem HasDir.created {dir : Str} {cpus : CpuSet} (h : HasDir tree dir cpus)
    (fs : FsAnswers) (pkg thread : Str) :
    HasDir (createAll fs tree (threadAffinityRun (answers fs tree) pkg thread cfg cfg.topo).2) dir cpus := by
  rcases made_cases fs tree pkg thread cfg with he | ⟨cpus', he⟩
  · rw [he]
    exact h
  · rw [he]
    exact h.ensure fs cpus' cfg.topo

/-- The directory of an answer is there when it is given. -/
theorem hasDir_threadAffinity (hm : cfg.topo.memsStr ≠ []) (hrules : RulesReady cfg.topo cfg.rules tree)
    {r : AffinityResult} (hr : threadAffinity (answers fs tree) pkg thread cfg cfg.topo = some r)
    (hdir : r.cpusetDir ≠ []) : cfg.topo.cpusetEnabled = true ∧
      HasDir (createAll fs tree (threadAffinityRun (answers fs tree) pkg thread cfg cfg.topo).2) r.cpusetDir
        r.cpus := by
  rw [threadAffinity_eq] at hr
  rw [threadAffinityRun_calls]
  split_ifs at hr with hu hp hT
  · obtain rfl := Option.some.inj hr
    exact absurd rfl hdir
  · obtain rfl := Option.some.inj hr
    have hgov : governingRules cfg.rules pkg thread = packageRules cfg.rules pkg := if_pos hT
    rw [if_pos hT]
    dsimp only at hdir ⊢
    rw [hgov]
    match hP : packageRules cfg.rules pkg with
    | [] =>
        rw [hP] at hdir
        exact absurd rfl hdir
    | [u] =>
        rw [hP] at hdir
        have hunion : unionCpus [u] = fromRange u.cpus := new_or _
        rw [hunion]
        have hmem : u ∈ cfg.rules := (mem_packageRules.mp (by rw [hP]; exact List.mem_cons_self)).1
        show cfg.topo.cpusetEnabled = true ∧ HasDir (createAll fs tree (ruleDir (answers fs tree) cfg.topo u).2)
          (ruleDir (answers fs tree) cfg.topo u).1 (fromRange u.cpus)
        have hdir' : (ruleDir (answers fs tree) cfg.topo u).1 ≠ [] := hdir
        have hcpus : CpuSet.new.or (cpusetFromRule u) = fromRange u.cpus := new_or _
        unfold ruleDir at hdir' ⊢
        rw [hcpus] at hdir' ⊢
        by_cases hempty : u.cpusetDir.isEmpty = true
        · rw [if_pos hempty] at hdir' ⊢
          exact hasDir_answered hm hdir'
        · rw [if_neg hempty]
          exact hrules u hmem (by simpa using hempty)
    | _ :: _ :: _ =>
        rw [hP] at hdir
        exact absurd rfl hdir
  · obtain rfl := Option.some.inj hr
    have hgov : governingRules cfg.rules pkg thread = threadRules cfg.rules pkg thread := if_neg hT
    rw [if_neg hT, hgov]
    exact hasDir_answered hm hdir

end

/-! ### What a load leaves in the tree -/

section

variable {fs : FsAnswers} {topo : CpuTopology}

theorem RulesReady.loadEntryIn (hm : topo.memsStr ≠ []) {acc : Loaded × CpusetTree}
    (h : RulesReady topo acc.1.rules acc.2) (e : JsonValue) :
    RulesReady topo (loadEntryIn fs topo acc e).1.rules (loadEntryIn fs topo acc e).2 := by
  unfold Placement.loadEntryIn loadEntry
  cases entryPackages e with
  | nil =>
      simp only [List.drop_length]
      exact h
  | cons first rest =>
      dsimp only
      rw [List.drop_left]
      -- a directory that is there stays there, and the new rule's is made now
      intro r hr hdir
      unfold otherCpusetDir at hr ⊢
      rcases List.mem_append.mp hr with hr | hr
      · obtain ⟨hon, hmade⟩ := h r hr hdir
        rw [createAll_ensure]
        exact ⟨hon, hmade.ensure fs _ topo⟩
      · rcases List.mem_cons.mp hr with rfl | hr
        · exact hasDir_answered hm hdir
        · obtain ⟨cn, -, rfl⟩ := List.mem_map.mp hr
          exact absurd rfl hdir

/-- The directories of a loaded configuration are there. -/
theorem rulesReady_loadIn (hm : topo.memsStr ≠ []) {parse : Str → Option JsonValue} {data : Option Str}
    {mtime : Option ℕ} {tree : CpusetTree} {cfg : AppConfig}
    (h : (loadIn fs parse topo data mtime tree).1 = some cfg) :
    cfg.topo = topo ∧ RulesReady topo cfg.rules (loadIn fs parse topo data mtime tree).2 := by
  unfold loadIn at h ⊢
  cases hroot : (data.bind parse).bind loadRoot with
  | none =>
      rw [hroot] at h
      cases h
  | some out =>
      obtain ⟨entries, ebpf⟩ := out
      rw [hroot] at h
      obtain ⟨mt, -, rfl⟩ := Option.map_eq_some_iff.mp h
      refine ⟨rfl, ?_⟩
      exact List.foldlRecOn (motive := fun acc : Loaded × CpusetTree => RulesReady topo acc.1.rules acc.2) entries _
        (fun r hr => absurd hr List.not_mem_nil) fun acc hacc e _ => hacc.loadEntryIn hm e

/-- A load keeps the directories that are there, also when it fails. -/
theorem HasDir.loadIn {tree : CpusetTree} {dir : Str} {cpus : CpuSet} (h : HasDir tree dir cpus)
    (fs : FsAnswers) (parse : Str → Option JsonValue) (data : Option Str) (mtime : Option ℕ) :
    HasDir (loadIn fs parse topo data mtime tree).2 dir cpus := by
  unfold Placement.loadIn
  cases (data.bind parse).bind loadRoot with
  | none => exact h
  | some out =>
      obtain ⟨entries, ebpf⟩ := out
      refine List.foldlRecOn (motive := fun acc : Loaded × CpusetTree => HasDir acc.2 dir cpus) entries _ h ?_
      intro acc hacc e _
      unfold Placement.loadEntryIn
      dsimp only
      rw [loadEntry_made, List.drop_left]
      unfold entryCalls
      split_ifs with hp hon
      · exact hacc
      · have hone := createAll_ensure fs acc.2 (fromRange (entryOther e)) topo
        unfold ensureCpusetDir at hone
        rw [if_neg (by rw [hon]; decide)] at hone
        rw [hone]
        exact hacc.ensure fs _ topo
      · exact hacc

/-- A rule that the cache file adds has no directory. -/
theorem mem_mergeCache_rules {parse : Str → Option JsonValue} {data : Option Str} {cfg : AppConfig} {r : Rule}
    (hr : r ∈ (cfg.mergeCache parse data).rules) : r ∈ cfg.rules ∨ r.cpusetDir = [] := by
  unfold AppConfig.mergeCache cache.merge at hr
  cases hroot : data.bind parse with
  | none =>
      rw [hroot] at hr
      exact Or.inl hr
  | some root =>
      rw [hroot] at hr
      dsimp only at hr
      split_ifs at hr
      · revert hr
        refine List.foldlRecOn (motive := fun m : cache.Merged => r ∈ m.rules → r ∈ cfg.rules ∨ r.cpusetDir = [])
          root.members _ Or.inl ?_
        intro acc hacc e _ hr
        unfold cache.mergeEntry at hr
        cases hp : entryPackages e with
        | nil =>
            rw [hp] at hr
            exact hacc hr
        | cons first rest =>
            rw [hp] at hr
            dsimp only at hr
            split_ifs at hr
            · exact hacc hr
            · rcases List.mem_append.mp hr with hr | hr
              · exact hacc hr
              · rcases List.mem_cons.mp hr with rfl | hr
                · exact Or.inr rfl
                · obtain ⟨cn, -, rfl⟩ := List.mem_map.mp hr
                  exact Or.inr rfl
      · exact Or.inl hr

theorem RulesReady.mergeCache {cfg : AppConfig} {tree : CpusetTree} (h : RulesReady topo cfg.rules tree)
    (parse : Str → Option JsonValue) (data : Option Str) : RulesReady topo (cfg.mergeCache parse data).rules tree := by
  intro r hr hdir
  rcases mem_mergeCache_rules hr with hr | hr
  · exact h r hr hdir
  · exact absurd hr hdir

theorem RulesReady.mergeAll {tree : CpusetTree} {parse : Str → Option JsonValue} : ∀ (caches : List (Option Str))
    {cfg : AppConfig}, RulesReady topo cfg.rules tree → RulesReady topo (mergeAll parse caches cfg).rules tree
  | [], _, h => h
  | data :: caches, _, h => RulesReady.mergeAll caches (h.mergeCache parse data)

end

end AetherOptExt
