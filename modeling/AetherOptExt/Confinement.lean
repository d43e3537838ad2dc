import AetherOptExt.ReadyDirs

/-! # Confined threads stay confined

On a `Placement` other programs move threads as they like.  A thread that the daemon has put into
the directory of its entry keeps the mask of the entry until somebody else moves this very thread,
whatever happens to the others (`confined_stays`).

The invariant is that the directories that rules and entries name are there (`Stocked`).  What a
step of the daemon does to one thread is `Touches`; it carries the invariant and the masks. -/

namespace AetherOptExt

open CpuSet ProcCache Placement

/-! ### What a step does to one thread -/

section

variable {allow : Tid → Str → Bool} {topo : CpuTopology} {tid : Tid} {pc pc' : ProcCache} {w w' : Placement}

/-- The directory of an entry is there. -/
def EntryReady (topo : CpuTopology) (tree : CpusetTree) (e : TaskEntry) : Prop :=
  e.cpusetDir ≠ [] → topo.cpusetEnabled = true ∧ HasDir tree e.cpusetDir e.cpus

/-- The directories that the entries name are there. -/
def Ready (topo : CpuTopology) (pc : ProcCache) (w : Placement) : Prop :=
  ∀ u e, pc.tasks.lookup u = some e → EntryReady topo w.tree e

/-- A live thread whose entry names a directory that the kernel lets it into has the mask of the entry. -/
def Confined (allow : Tid → Str → Bool) (pc : ProcCache) (w : Placement) (u : Tid) : Prop :=
  ∀ e x, pc.tasks.lookup u = some e → w.threads.lookup u = some x → e.cpusetDir ≠ [] →
    allow u (tasksGroup e.cpusetDir) = true → x.mask = e.cpus

/-- The step leaves the directories and the other threads alone, and it gives the thread an entry
only together with its mask. -/
structure Touches (allow : Tid → Str → Bool) (topo : CpuTopology) (tid : Tid) (pc : ProcCache) (w : Placement)
    (pc' : ProcCache) (w' : Placement) : Prop where
  dirs : ∀ dir cpus, HasDir w.tree dir cpus → HasDir w'.tree dir cpus
  others : ∀ u, u ≠ tid →
    pc'.tasks.lookup u = pc.tasks.lookup u ∧ w'.threads.lookup u = w.threads.lookup u
  own : (pc'.tasks.lookup tid = pc.tasks.lookup tid ∧ w'.threads.lookup tid = w.threads.lookup tid) ∨
    ((∀ e, pc'.tasks.lookup tid = some e → EntryReady topo w'.tree e) ∧ Confined allow pc' w' tid)

theorem Touches.of_tasks {pc₀ : ProcCache} (h : Touches allow topo tid pc₀ w pc' w') (htasks : pc₀.tasks = pc.tasks) :
    Touches allow topo tid pc w pc' w' :=
  ⟨h.dirs, fun u hu => htasks ▸ h.others u hu, htasks ▸ h.own⟩

theorem Touches.rules {cfg : AppConfig} (h : Touches allow topo tid pc w pc' w')
    (hr : RulesReady cfg.topo cfg.rules w.tree) : RulesReady cfg.topo cfg.rules w'.tree := fun r hr' hdir =>
  (hr r hr' hdir).imp_right (h.dirs _ _)

theorem Touches.ready (h : Touches allow topo tid pc w pc' w') (hr : Ready topo pc w) : Ready topo pc' w' := by
  intro u e he
  have hkeep : pc.tasks.lookup u = some e → EntryReady topo w'.tree e := fun he hdir =>
    (hr u e he hdir).imp_right (h.dirs _ _)
  by_cases hu : u = tid
  · subst hu
    rcases h.own with ⟨hown, -⟩ | ⟨hown, -⟩
    · exact hkeep (hown.symm.trans he)
    · exact hown e he
  · exact hkeep ((h.others u hu).1.symm.trans he)

theorem Touches.confined (h : Touches allow topo tid pc w pc' w') {u : Tid} (hc : Confined allow pc w u) :
    Confined allow pc' w' u := by
  have hkeep : pc'.tasks.lookup u = pc.tasks.lookup u → w'.threads.lookup u = w.threads.lookup u →
      Confined allow pc' w' u := fun htasks hthreads e x he hx =>
    hc e x (htasks.symm.trans he) (hthreads.symm.trans hx)
  by_cases hu : u = tid
  · subst hu
    rcases h.own with ⟨htasks, hthreads⟩ | ⟨-, hown⟩
    · exact hkeep htasks hthreads
    · exact hown
  · exact hkeep (h.others u hu).1 (h.others u hu).2

/-- A thread that had no entry is confined after its step. -/
theorem Touches.binds (h : Touches allow topo tid pc w pc' w') (hnone : pc.tasks.lookup tid = none) :
    Confined allow pc' w' tid := by
  rcases h.own with ⟨htasks, -⟩ | ⟨-, hown⟩
  · intro e x he
    rw [htasks, hnone] at he
    cases he
  · exact hown

end

/-- What `task_apply` does with an answer of the rules that has left these directories. -/
inductive TaskPlaced (allow : Tid → Str → Bool) (topo : CpuTopology) (pc : ProcCache) (tid pid : Tid) (w : Placement)
    (answer : Option AffinityResult) (tree : CpusetTree) : ProcCache → Placement → Prop
  | unruled (h : answer = none) : TaskPlaced allow topo pc tid pid w answer tree pc { w with tree := tree }
  | kept {r : AffinityResult} (h : answer = some r) (hk : pc.keeps tid r = true) :
      TaskPlaced allow topo pc tid pid w answer tree pc { w with tree := tree }
  | gone {r : AffinityResult} {pc' : ProcCache} {w' : Placement} (h : answer = some r) (hk : pc.keeps tid r = false)
      (hdead : tid ∉ w.threads) (htree : w'.tree = tree)
      (htasks : ∀ u, pc'.tasks.lookup u = if u = tid then none else pc.tasks.lookup u)
      (hthreads : ∀ u, w'.threads.lookup u = w.threads.lookup u) :
      TaskPlaced allow topo pc tid pid w answer tree pc' w'
  | bound {r : AffinityResult} {pc' : ProcCache} {w' : Placement} (h : answer = some r) (hk : pc.keeps tid r = false)
      (hlive : tid ∈ w.threads) (htree : w'.tree = tree)
      (htasks : ∀ u, pc'.tasks.lookup u = if u = tid then some (entryOf pid r) else pc.tasks.lookup u)
      (hthreads : ∀ u, w'.threads.lookup u =
        if u = tid then (w.threads.lookup tid).map (settled allow topo tree tid r.cpusetDir r.cpus)
        else w.threads.lookup u) :
      TaskPlaced allow topo pc tid pid w answer tree pc' w'

section

variable (fs : FsAnswers) (allow : Tid → Str → Bool) {cfg : AppConfig} (pc : ProcCache) (s : AppliedMap × Placement)

theorem taskApplyIn_case (tid pid : Tid) (pkg comm : Str) (htr trust : Bool) :
    TaskPlaced allow cfg.topo pc tid pid s.2
      (threadAffinity (answers fs s.2.tree) pkg (threadName htr trust comm) cfg cfg.topo)
      (createAll fs s.2.tree
        (threadAffinityRun (answers fs s.2.tree) pkg (threadName htr trust comm) cfg cfg.topo).2)
      (taskApplyIn fs allow pc tid pid pkg comm htr cfg trust s).2.1
      (taskApplyIn fs allow pc tid pid pkg comm htr cfg trust s).2.2.2 := by
  unfold taskApplyIn
  dsimp only
  generalize createAll fs s.2.tree
    (threadAffinityRun (answers fs s.2.tree) pkg (threadName htr trust comm) cfg cfg.topo).2 = tree
  have hcase := taskApply_case (answers fs s.2.tree) pc tid pid pkg comm htr cfg trust
    (eventAffinityApplyIn allow cfg.topo) (s.1, { s.2 with tree := tree })
  generalize pc.taskApply (answers fs s.2.tree) tid pid pkg comm htr cfg trust (eventAffinityApplyIn allow cfg.topo)
    (s.1, { s.2 with tree := tree }) = out at hcase ⊢
  -- binding the thread reports whether it is gone, and settles it alone
  have hdead : ∀ cpus dir, (eventAffinityApplyIn allow cfg.topo tid cpus dir
      (s.1, { s.2 with tree := tree })).1 = decide (tid ∉ s.2.threads) := fun cpus dir => affinitySetIn_fst ..
  have htree : ∀ cpus dir, (eventAffinityApplyIn allow cfg.topo tid cpus dir
      (s.1, { s.2 with tree := tree })).2.2.tree = tree := fun cpus dir => affinitySetIn_tree ..
  have hthreads : ∀ cpus dir u, (eventAffinityApplyIn allow cfg.topo tid cpus dir
      (s.1, { s.2 with tree := tree })).2.2.threads.lookup u =
      if u = tid then (s.2.threads.lookup tid).map (settled allow cfg.topo tree tid dir cpus)
      else s.2.threads.lookup u := fun cpus dir u => affinitySetIn_lookup ..
  cases hcase with
  | unruled h => exact .unruled h
  | kept h hk => exact .kept h hk
  | @gone r h hk hd =>
      have hno : tid ∉ s.2.threads := of_decide_eq_true ((hdead r.cpus r.cpusetDir).symm.trans hd)
      refine .gone h hk hno (htree _ _) (KeyMap.lookup_erase pc.tasks tid) fun u => ?_
      rw [hthreads, AList.lookup_eq_none.mpr hno]
      split_ifs with hu
      · rw [hu, AList.lookup_eq_none.mpr hno]
        rfl
      · rfl
  | @bound r h hk hd =>
      have hlive : tid ∈ s.2.threads := not_not.mp (of_decide_eq_false ((hdead r.cpus r.cpusetDir).symm.trans hd))
      refine .bound h hk hlive (htree _ _) (fun u => ?_) (hthreads _ _)
      show ((pc.tasks.erase tid).insert tid (entryOf pid r)).lookup u = _
      rw [KeyMap.lookup_insert, KeyMap.lookup_erase]
      split_ifs <;> rfl

/-- `task_apply` touches its thread. -/
theorem touches_taskApplyIn (hm : cfg.topo.memsStr ≠ []) (hrules : RulesReady cfg.topo cfg.rules s.2.tree)
    (tid pid : Tid) (pkg comm : Str) (htr trust : Bool) :
    Touches allow cfg.topo tid pc s.2 (taskApplyIn fs allow pc tid pid pkg comm htr cfg trust s).2.1
      (taskApplyIn fs allow pc tid pid pkg comm htr cfg trust s).2.2.2 := by
  have hdirs : ∀ dir cpus, HasDir s.2.tree dir cpus → HasDir (createAll fs s.2.tree
      (threadAffinityRun (answers fs s.2.tree) pkg (threadName htr trust comm) cfg cfg.topo).2) dir cpus :=
    fun dir cpus h => h.created fs pkg (threadName htr trust comm)
  have hanswer : ∀ r, threadAffinity (answers fs s.2.tree) pkg (threadName htr trust comm) cfg cfg.topo = some r →
      r.cpusetDir ≠ [] → _ := fun r hr hdir => hasDir_threadAffinity hm hrules hr hdir
  have hcase := @taskApplyIn_case fs allow cfg pc s tid pid pkg comm htr trust
  generalize createAll fs s.2.tree (threadAffinityRun (answers fs s.2.tree) pkg (threadName htr trust comm) cfg
    cfg.topo).2 = tree at hdirs hanswer hcase
  generalize (taskApplyIn fs allow pc tid pid pkg comm htr cfg trust s).2.1 = pc',
    (taskApplyIn fs allow pc tid pid pkg comm htr cfg trust s).2.2.2 = w' at hcase ⊢
  cases hcase with
  | unruled => exact ⟨hdirs, fun u _ => ⟨rfl, rfl⟩, Or.inl ⟨rfl, rfl⟩⟩
  | kept => exact ⟨hdirs, fun u _ => ⟨rfl, rfl⟩, Or.inl ⟨rfl, rfl⟩⟩
  | gone h hk hdead htree htasks hthreads =>
      subst htree
      refine ⟨hdirs, fun u hu => ⟨(htasks u).trans (if_neg hu), hthreads u⟩, Or.inr ⟨fun e he => ?_, fun e x he => ?_⟩⟩
      · rw [htasks, if_pos rfl] at he
        cases he
      · rw [htasks, if_pos rfl] at he
        cases he
  | @bound r _ _ h hk hlive htree htasks hthreads =>
      subst htree
      refine ⟨hdirs, fun u hu => ⟨(htasks u).trans (if_neg hu), (hthreads u).trans (if_neg hu)⟩, Or.inr ⟨?_, ?_⟩⟩
      · intro e he hdir
        rw [htasks, if_pos rfl] at he
        obtain rfl := Option.some.inj he
        exact hanswer r h hdir
      · intro e x he hx hdir ha
        rw [htasks, if_pos rfl] at he
        obtain rfl := Option.some.inj he
        rw [hthreads, if_pos rfl, Option.map_eq_some_iff] at hx
        obtain ⟨y, -, rfl⟩ := hx
        obtain ⟨hon, hmade⟩ := hanswer r h hdir
        exact hmade.settled_mask hon ha y

theorem touches_eventApplyIn (hm : cfg.topo.memsStr ≠ []) (hrules : RulesReady cfg.topo cfg.rules s.2.tree)
    (tid pid : Tid) (comm : Str) (trust : Bool) :
    Touches allow cfg.topo tid pc s.2 (eventApplyIn fs allow pc tid pid comm cfg trust s).2.1
      (eventApplyIn fs allow pc tid pid comm cfg trust s).2.2.2 := by
  have htasks : (pc.pkgLookupComm pid comm cfg).2.tasks = pc.tasks := pkgLookupComm_tasks ..
  unfold eventApplyIn
  generalize pc.pkgLookupComm pid comm cfg = found at htasks ⊢
  match found with
  | (none, pc') => exact ⟨fun _ _ h => h, fun u _ => ⟨by rw [← htasks], rfl⟩, Or.inl ⟨by rw [← htasks], rfl⟩⟩
  | (some (pkg, htr), pc') =>
      exact (touches_taskApplyIn fs allow pc' s hm hrules tid pid pkg comm htr trust).of_tasks htasks

theorem eventApplyIn_of_false (tid pid : Tid) (comm : Str) (trust : Bool)
    (h : (eventApplyIn fs allow pc tid pid comm cfg trust s).1 = false) :
    eventApplyIn fs allow pc tid pid comm cfg trust s = (false, pc, s) := by
  unfold eventApplyIn at h ⊢
  match hl : pc.pkgLookupComm pid comm cfg with
  | (none, pc') =>
      have hpc := pkgLookupComm_none (by rw [hl] : (pc.pkgLookupComm pid comm cfg).1 = none)
      rw [hl] at hpc
      rw [← show pc' = pc from hpc]
  | (some (pkg, htr), pc') =>
      rw [hl] at h
      cases h

/-- An exit removes the entry. -/
theorem touches_taskDel (topo : CpuTopology) {pc₀ : ProcCache} (htasks : pc₀.tasks = pc.tasks) (tid : Tid)
    (w : Placement) : Touches allow topo tid pc w (pc₀.taskDel tid) w := by
  have hlookup : ∀ u, (pc₀.taskDel tid).tasks.lookup u = if u = tid then none else pc.tasks.lookup u := fun u => by
    rw [taskDel_tasks, KeyMap.lookup_erase, htasks]
  refine ⟨fun _ _ h => h, fun u hu => ⟨(hlookup u).trans (if_neg hu), rfl⟩, Or.inr ⟨fun e he => ?_, fun e x he => ?_⟩⟩
  · rw [hlookup, if_pos rfl] at he
    cases he
  · rw [hlookup, if_pos rfl] at he
    cases he

/-- An event touches its thread. -/
theorem touches_eventDispatchIn (hm : cfg.topo.memsStr ≠ []) (hrules : RulesReady cfg.topo cfg.rules s.2.tree)
    (ev : ProcEvent) :
    Touches allow cfg.topo ev.tid pc s.2 (eventDispatchIn fs allow ev cfg pc s).1
      (eventDispatchIn fs allow ev cfg pc s).2.2 := by
  unfold eventDispatchIn
  by_cases hexit : ev.eventType = eventExit
  · simp only [hexit, if_true]
    exact touches_taskDel allow pc cfg.topo (by split_ifs <;> rfl) ev.tid s.2
  simp only [hexit, if_false]
  by_cases hexec : ev.eventType = eventExec
  · simp only [hexec, if_true]
    have h := touches_eventApplyIn fs allow { pc with pkgs := pc.pkgs.erase ev.pid } s hm hrules ev.tid ev.pid
      (commStr ev.comm) true
    have hfalse := @eventApplyIn_of_false fs allow cfg { pc with pkgs := pc.pkgs.erase ev.pid } s ev.tid ev.pid
      (commStr ev.comm) true
    generalize eventApplyIn fs allow { pc with pkgs := pc.pkgs.erase ev.pid } ev.tid ev.pid (commStr ev.comm) cfg true s
      = out at h hfalse ⊢
    match out, h, hfalse with
    | (true, _), h, _ => exact h.of_tasks rfl
    | (false, pc', s'), _, hfalse =>
        obtain ⟨rfl, rfl⟩ := Prod.mk.inj (Prod.mk.inj (hfalse rfl)).2
        let forgotten : ProcCache := { pc with pkgs := pc.pkgs.erase ev.pid }
        have htasks : forgotten.tasks = pc.tasks := rfl
        exact touches_taskDel allow pc cfg.topo htasks ev.tid s'.2
  simp only [hexec, if_false]
  by_cases hfork : ev.eventType = eventFork
  · simp only [hfork, if_true]
    exact touches_eventApplyIn fs allow pc s hm hrules ev.tid ev.pid (commStr ev.comm) _
  simp only [hfork, if_false]
  by_cases hren : ev.eventType = eventRename
  · simp only [hren, if_true]
    exact touches_eventApplyIn fs allow pc s hm hrules ev.tid ev.pid (commStr ev.comm) true
  · simp only [hren, if_false]
    exact ⟨fun _ _ h => h, fun u _ => ⟨rfl, rfl⟩, Or.inl ⟨rfl, rfl⟩⟩

end

/-! ### Scans and corrections -/

/-- The directories are there, and every thread is confined. -/
structure AllConfined (allow : Tid → Str → Bool) (cfg : AppConfig) (pc : ProcCache) (w : Placement) : Prop where
  rules : RulesReady cfg.topo cfg.rules w.tree
  ready : Ready cfg.topo pc w
  confined : ∀ u, Confined allow pc w u

section

variable (fs : FsAnswers) (allow : Tid → Str → Bool) {cfg : AppConfig}

theorem AllConfined.scanTaskIn (hm : cfg.topo.memsStr ≠ []) {acc : ProcCache × AppliedMap × Placement}
    (h : AllConfined allow cfg acc.1 acc.2.2) (pid : Tid) (pkg : Str) (htr : Bool) (x : TidReading) :
    AllConfined allow cfg (scanTaskIn fs allow cfg pid pkg htr acc x).1
      (scanTaskIn fs allow cfg pid pkg htr acc x).2.2 := by
  have ht := touches_taskApplyIn fs allow acc.1 acc.2 hm h.rules x.tid pid pkg (scanName htr x.comm) htr true
  exact ⟨ht.rules h.rules, ht.ready h.ready, fun u => ht.confined (h.confined u)⟩

theorem AllConfined.scanProcIn (hm : cfg.topo.memsStr ≠ []) {acc : ProcCache × AppliedMap × Placement}
    (h : AllConfined allow cfg acc.1 acc.2.2) (t : ScanTarget) :
    AllConfined allow cfg (scanProcIn fs allow cfg acc t).1 (scanProcIn fs allow cfg acc t).2.2 := by
  unfold Placement.scanProcIn
  cases t.tids with
  | none => exact h
  | some tids =>
      have hfold : AllConfined allow cfg (tids.foldl (Placement.scanTaskIn fs allow cfg t.pid t.pkg t.htr) acc).1
          (tids.foldl (Placement.scanTaskIn fs allow cfg t.pid t.pkg t.htr) acc).2.2 :=
        List.foldlRecOn (motive := fun acc : ProcCache × AppliedMap × Placement =>
          AllConfined allow cfg acc.1 acc.2.2) tids _ h fun acc hacc x _ =>
            hacc.scanTaskIn fs allow hm t.pid t.pkg t.htr x
      -- what is confined does not depend on the packages
      exact ⟨hfold.rules, hfold.ready, hfold.confined⟩

/-- A scan confines every thread that it binds. -/
theorem allConfined_fullScanIn (hm : cfg.topo.memsStr ≠ []) (dir : Option (List ProcReading)) (pc : ProcCache)
    (s : AppliedMap × Placement) (hrules : RulesReady cfg.topo cfg.rules s.2.tree) :
    AllConfined allow cfg (fullScanIn fs allow cfg dir pc s).1 (fullScanIn fs allow cfg dir pc s).2.2 := by
  have hstart : AllConfined allow cfg pc.clear s.2 :=
    ⟨hrules, fun u e he => (by cases he), fun u e x he => (by cases he)⟩
  unfold fullScanIn
  cases dir with
  | none => exact hstart
  | some entries =>
      exact List.foldlRecOn (motive := fun acc : ProcCache × AppliedMap × Placement =>
        AllConfined allow cfg acc.1 acc.2.2) (entries.filterMap (scanTarget cfg)) _ hstart
          fun acc hacc t _ => hacc.scanProcIn fs allow hm t

/-- A correction confines every bound thread. -/
theorem allConfined_correctAffinityIn (pc : ProcCache) (s : AppliedMap × Placement)
    (hrules : RulesReady cfg.topo cfg.rules s.2.tree) (hready : Ready cfg.topo pc s.2) :
    AllConfined allow cfg (correctAffinityIn allow cfg pc s).1 (correctAffinityIn allow cfg pc s).2.2 := by
  have htree : (correctAffinityIn allow cfg pc s).2.2.tree = s.2.tree :=
    (Prod.mk.inj (affinitySyncIn_get allow cfg.topo pc s.2 0)).1
  -- the entries that are left are entries of the cache
  have hold : ∀ u e, (correctAffinityIn allow cfg pc s).1.tasks.lookup u = some e → pc.tasks.lookup u = some e := by
    intro u e he
    have he' : (((s.2.affinitySyncIn allow pc cfg.topo).1.1).foldl taskDel pc).tasks.lookup u = some e := he
    rw [foldl_taskDel_tasks, KeyMap.lookup_eraseAll] at he'
    split_ifs at he'
    exact he'
  refine ⟨fun r hr hdir => by rw [htree]; exact hrules r hr hdir,
    fun u e he => by rw [htree]; exact hready u e (hold u e he), fun u e x he hx hdir ha => ?_⟩
  have he' := hold u e he
  have hx' : (s.2.affinitySyncIn allow pc cfg.topo).2.2.threads.lookup u = some x := hx
  rw [affinitySyncIn_lookup, he'] at hx'
  obtain ⟨y, -, rfl⟩ := Option.map_eq_some_iff.mp hx'
  obtain ⟨hon, hmade⟩ := hready u e he' hdir
  exact hmade.settled_mask hon ha y

end

/-! ### Runs -/

/-- The daemon and what it acts on. -/
structure Placed where
  cfg : AppConfig
  pc : ProcCache
  applied : AppliedMap
  w : Placement

/-- What can happen: the daemon handles an event, loads its file again, scans `/proc` or corrects;
another program starts a thread, moves one or changes its mask; a thread exits. -/
inductive PlacedAction where
  | event (fs : FsAnswers) (ev : ProcEvent)
  | reload (fs : FsAnswers) (data : Option Str) (mtime : Option ℕ) (cache : Option Str)
  | scan (fs : FsAnswers) (dir : Option (List ProcReading))
  | correct
  | foreign (tid : Tid) (x : Standing)
  | exit (tid : Tid)

namespace Placed

variable (parse : Str → Option JsonValue) (allow : Tid → Str → Bool)

/-- The state with the outcome of a step of the daemon. -/
def after (s : Placed) (out : ProcCache × AppliedMap × Placement) : Placed :=
  { s with pc := out.1, applied := out.2.1, w := out.2.2 }

/-- `hot_reload`: the old configuration is kept when the load fails. -/
def reload (s : Placed) (fs : FsAnswers) (data : Option Str) (mtime : Option ℕ) (cache : Option Str) : Placed :=
  let out := loadIn fs parse s.cfg.topo data mtime s.w.tree
  { s with cfg := (out.1.map (AppConfig.mergeCache parse cache)).getD s.cfg, w := { s.w with tree := out.2 } }

/-- One step; every action is possible in every state. -/
def step (s : Placed) : PlacedAction → Option Placed
  | .event fs ev => some (s.after (eventDispatchIn fs allow ev s.cfg s.pc (s.applied, s.w)))
  | .reload fs data mtime cache => some (s.reload parse fs data mtime cache)
  | .scan fs dir => some (s.after (fullScanIn fs allow s.cfg dir s.pc (s.applied, s.w)))
  | .correct => some (s.after (correctAffinityIn allow s.cfg s.pc (s.applied, s.w)))
  | .foreign tid x => some { s with w := { s.w with threads := s.w.threads.insert tid x } }
  | .exit tid => some { s with w := { s.w with threads := s.w.threads.erase tid } }

/-- The daemon has loaded its file, and merged the cache file into it; the base has memory nodes. -/
def Init (s : Placed) : Prop :=
  s.cfg.topo.memsStr ≠ [] ∧ s.pc = ProcCache.new ∧ ∃ fs data mtime tree cfg caches,
    loadIn fs parse s.cfg.topo data mtime tree = (some cfg, s.w.tree) ∧ s.cfg = mergeAll parse caches cfg

/-- The action is another program's, on this thread. -/
def Foreign (u : Tid) : PlacedAction → Prop
  | .foreign tid _ => tid = u
  | _ => False

/-- The daemon puts the thread where its entry says: it scans, it corrects, or it handles an event
of the thread, which has no entry yet. -/
def Puts (u : Tid) (s : Placed) : PlacedAction → Prop
  | .event _ ev => ev.tid = u ∧ u ∉ s.pc.tasks
  | .scan _ _ => True
  | .correct => True
  | _ => False

/-- The invariant of the daemon: the directories are there. -/
structure Stocked (s : Placed) : Prop where
  mems : s.cfg.topo.memsStr ≠ []
  rules : RulesReady s.cfg.topo s.cfg.rules s.w.tree
  ready : Ready s.cfg.topo s.pc s.w

variable {parse allow}

theorem Stocked.reload {s : Placed} (h : Stocked s) (fs : FsAnswers) (data : Option Str) (mtime : Option ℕ)
    (cache : Option Str) : Stocked (s.reload parse fs data mtime cache) := by
  have hdirs : ∀ dir cpus, HasDir s.w.tree dir cpus →
      HasDir (loadIn fs parse s.cfg.topo data mtime s.w.tree).2 dir cpus := fun _ _ hd =>
    hd.loadIn fs parse data mtime
  have hready : ∀ u e, s.pc.tasks.lookup u = some e →
      EntryReady s.cfg.topo (loadIn fs parse s.cfg.topo data mtime s.w.tree).2 e := fun u e he hdir =>
    (h.ready u e he hdir).imp_right (hdirs _ _)
  unfold Placed.reload
  cases hl : (loadIn fs parse s.cfg.topo data mtime s.w.tree).1 with
  | none =>
      simp only [hl, Option.map_none, Option.getD_none]
      exact ⟨h.mems, fun r hr hdir => (h.rules r hr hdir).imp_right (hdirs _ _), hready⟩
  | some cfg =>
      obtain ⟨htopo, hrules⟩ := rulesReady_loadIn h.mems hl
      have htopo' : (cfg.mergeCache parse cache).topo = s.cfg.topo := htopo
      simp only [hl, Option.map_some, Option.getD_some]
      refine ⟨?_, ?_, ?_⟩
      · show (cfg.mergeCache parse cache).topo.memsStr ≠ []
        rw [htopo']
        exact h.mems
      · show RulesReady (cfg.mergeCache parse cache).topo _ _
        rw [htopo']
        exact hrules.mergeCache parse cache
      · show Ready (cfg.mergeCache parse cache).topo _ _
        rw [htopo']
        exact hready

theorem Stocked.step {s s' : Placed} {a : PlacedAction} (h : Stocked s) (hs : s.step parse allow a = some s') :
    Stocked s' := by
  cases a with
  | event fs ev =>
      obtain rfl := Option.some.inj hs
      have ht := touches_eventDispatchIn fs allow s.pc (s.applied, s.w) h.mems h.rules ev
      exact ⟨h.mems, ht.rules h.rules, ht.ready h.ready⟩
  | reload fs data mtime cache =>
      obtain rfl := Option.some.inj hs
      exact h.reload fs data mtime cache
  | scan fs dir =>
      obtain rfl := Option.some.inj hs
      have hall := allConfined_fullScanIn fs allow h.mems dir s.pc (s.applied, s.w) h.rules
      exact ⟨h.mems, hall.rules, hall.ready⟩
  | correct =>
      obtain rfl := Option.some.inj hs
      have hall := allConfined_correctAffinityIn allow s.pc (s.applied, s.w) h.rules h.ready
      exact ⟨h.mems, hall.rules, hall.ready⟩
  | foreign tid x =>
      obtain rfl := Option.some.inj hs
      exact ⟨h.mems, h.rules, h.ready⟩
  | exit tid =>
      obtain rfl := Option.some.inj hs
      exact ⟨h.mems, h.rules, h.ready⟩

theorem stocked_init {s : Placed} (h : Init parse s) : Stocked s := by
  obtain ⟨hm, hpc, fs, data, mtime, tree, cfg, caches, hl, hcfg⟩ := h
  obtain ⟨-, hrules⟩ := rulesReady_loadIn hm (congrArg Prod.fst hl)
  rw [hl] at hrules
  refine ⟨hm, ?_, fun u e he => ?_⟩
  · rw [hcfg] at hrules ⊢
    exact hrules.mergeAll caches
  · rw [hpc] at he
    cases he

/-- A step that puts the thread confines it. -/
theorem confined_of_puts {u : Tid} {s s' : Placed} {a : PlacedAction} (h : Stocked s) (hp : Puts u s a)
    (hs : s.step parse allow a = some s') : Confined allow s'.pc s'.w u := by
  cases a with
  | event fs ev =>
      obtain rfl := Option.some.inj hs
      obtain ⟨rfl, hn⟩ := hp
      exact (touches_eventDispatchIn fs allow s.pc (s.applied, s.w) h.mems h.rules ev).binds
        (AList.lookup_eq_none.mpr hn)
  | scan fs dir =>
      obtain rfl := Option.some.inj hs
      exact (allConfined_fullScanIn fs allow h.mems dir s.pc (s.applied, s.w) h.rules).confined u
  | correct =>
      obtain rfl := Option.some.inj hs
      exact (allConfined_correctAffinityIn allow s.pc (s.applied, s.w) h.rules h.ready).confined u
  | reload | foreign | exit => exact absurd hp id

/-- A step that is no other program's on the thread keeps it confined. -/
theorem confined_step {u : Tid} {s s' : Placed} {a : PlacedAction} (h : Stocked s) (hf : ¬ Foreign u a)
    (hs : s.step parse allow a = some s') (hc : Confined allow s.pc s.w u) : Confined allow s'.pc s'.w u := by
  cases a with
  | event fs ev =>
      obtain rfl := Option.some.inj hs
      exact (touches_eventDispatchIn fs allow s.pc (s.applied, s.w) h.mems h.rules ev).confined hc
  | reload fs data mtime cache =>
      obtain rfl := Option.some.inj hs
      exact hc
  | scan fs dir => exact confined_of_puts h (show Puts u s (.scan fs dir) from trivial) hs
  | correct => exact confined_of_puts h (show Puts u s .correct from trivial) hs
  | foreign tid x =>
      obtain rfl := Option.some.inj hs
      intro e y he hy
      have hne : u ≠ tid := fun hu => hf hu.symm
      have hy' : (s.w.threads.insert tid x).lookup u = some y := hy
      rw [KeyMap.lookup_insert, if_neg hne] at hy'
      exact hc e y he hy'
  | exit tid =>
      obtain rfl := Option.some.inj hs
      intro e y he hy
      have hy' : (s.w.threads.erase tid).lookup u = some y := hy
      rw [KeyMap.lookup_erase] at hy'
      split_ifs at hy'
      exact hc e y he hy'

/-- **Confined threads stay confined.**  Once the daemon has put a thread where its entry says, the
thread has the mask of its entry in every later state in which both are there, as long as no other
program has moved this thread since: whatever others do to the other threads, whatever events come,
however often the file is loaded again, and whichever calls that create directories fail. -/
theorem confined_stays (parse : Str → Option JsonValue) (allow : Tid → Str → Bool) (u : Tid) (s s₁ s' : Placed)
    (a : PlacedAction) (hs : Runs.Reachable (step parse allow) (fun _ _ => True) (Init parse) s) (hp : Puts u s a)
    (ha : s.step parse allow a = some s₁) (hr : Runs.Steps (step parse allow) (fun _ b => ¬ Foreign u b) s₁ s')
    (e : TaskEntry) (x : Standing) (he : s'.pc.tasks.lookup u = some e) (hx : s'.w.threads.lookup u = some x)
    (hdir : e.cpusetDir ≠ []) (hallow : allow u (tasksGroup e.cpusetDir) = true) : x.mask = e.cpus := by
  have hstocked : Stocked s := hs.invariant (fun _ => stocked_init) fun _ _ _ h _ hstep => h.step hstep
  have hfinal : Stocked s' ∧ Confined allow s'.pc s'.w u := by
    refine hr.invariant (I := fun s => Stocked s ∧ Confined allow s.pc s.w u) ?_
      ⟨hstocked.step ha, confined_of_puts hstocked hp ha⟩
    rintro s b s₂ ⟨h, hc⟩ hf hstep
    exact ⟨h.step hstep, confined_step h hf hstep hc⟩
  exact hfinal.2 e x he hx hdir hallow

/-- A file with one package on the CPUs 0 to 3. -/
def oneEntry : Str × JsonValue :=
  ("one".toList, .array [.object [("packages".toList, .array [.string "com.a".toList]),
    ("cpuset".toList, .object [("other".toList, .string "0-3".toList)])]])

/-- A device with cpusets that has just loaded the file, and one thread. -/
def started : Placed :=
  let out := loadIn .allows (parseOf [oneEntry]) ⟨fromRange "0-7".toList, ['0'], true⟩ (some oneEntry.1) (some 0) ∅
  { cfg := out.1.getD oneRule
    pc := ProcCache.new
    applied := ∅
    w := ⟨out.2, (∅ : KeyMap Tid Standing).insert 10 ⟨fromRange "0-7".toList, baseCpuset⟩⟩ }

/-- The thread is put into its directory when it executes `com.a`, and another thread is moved. -/
theorem confined_stays_other :
    ∃ s₁ s' e x,
      started.step (parseOf [oneEntry]) (fun _ _ => true)
        (.event .allows ⟨10, 10, Comm.ofText "com.a".toList, eventExec⟩) = some s₁ ∧
      s₁.step (parseOf [oneEntry]) (fun _ _ => true) (.foreign 20 ⟨fromRange "7".toList, baseCpuset⟩) = some s' ∧
      s'.pc.tasks.lookup 10 = some e ∧ s'.w.threads.lookup 10 = some x ∧ e.cpus = fromRange "0-3".toList ∧
      x.mask = e.cpus := by
  have hinit : Init (parseOf [oneEntry]) started :=
    ⟨by decide, rfl, .allows, some oneEntry.1, some 0, ∅, started.cfg, [], rfl, rfl⟩
  obtain ⟨s', hrun, hp⟩ := Runs.exists_run (step (parseOf [oneEntry]) fun _ _ => true) started
    [.event .allows ⟨10, 10, Comm.ofText "com.a".toList, eventExec⟩, .foreign 20 ⟨fromRange "7".toList, baseCpuset⟩]
    (fun s' => decide (s'.pc.tasks.lookup 10 = some ⟨10, fromRange "0-3".toList, "0-3".toList, false⟩) &&
      decide (s'.w.threads.lookup 10 = some ⟨fromRange "0-3".toList, baseCpuset ++ '/' :: "0-3".toList⟩))
    (by decide +kernel)
  obtain ⟨s₁, h₁, hrun⟩ := Option.bind_eq_some_iff.mp hrun
  obtain ⟨s₂, h₂, hrun⟩ := Option.bind_eq_some_iff.mp hrun
  obtain rfl := Option.some.inj hrun
  rw [Bool.and_eq_true, decide_eq_true_eq, decide_eq_true_eq] at hp
  refine ⟨s₁, s₂, _, _, h₁, h₂, hp.1, hp.2, rfl, ?_⟩
  have hother : ¬ Foreign 10 (.foreign 20 ⟨fromRange "7".toList, baseCpuset⟩) := by
    intro h
    cases h
  exact confined_stays (parseOf [oneEntry]) (fun _ _ => true) 10 started s₁ s₂
    (.event .allows ⟨10, 10, Comm.ofText "com.a".toList, eventExec⟩) ⟨started, hinit, .refl _⟩ ⟨rfl, by decide⟩ h₁
    (.single (a := .foreign 20 ⟨fromRange "7".toList, baseCpuset⟩) hother h₂) _ _ hp.1 hp.2 (by decide) rfl

end Placed

end AetherOptExt
