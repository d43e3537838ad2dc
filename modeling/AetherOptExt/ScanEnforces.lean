import AetherOptExt.Confinement
import AetherOptExt.FullScan

/-! # What a scan puts in force

A full scan answers for every thread of every configured process with the rules of the file, makes
the directories it needs on the way and moves the threads.  On a snapshot of `/proc` each live thread
ends with the CPUs that the rules give it, whichever creations of directories fail, and nobody else
is moved (`Placed.scan_enforces`): a thread whose directory could not be made stands in the base
directory, which has the present CPUs (`BaseReady`). -/

namespace AetherOptExt

open CpuSet ProcCache Placement

/-! ### The base directory -/

/-- The base directory has the present CPUs and memory nodes. -/
structure BaseReady (topo : CpuTopology) (tree : CpusetTree) : Prop where
  enabled : topo.cpusetEnabled = true
  some_cpu : topo.presentCpus ≠ CpuSet.new
  made : ∃ c, tree.lookup baseCpuset = some c ∧ c.cpus = topo.presentCpus ∧ c.mems ≠ []

section

variable {fs : FsAnswers} {allow : Tid → Str → Bool} {tree : CpusetTree} {cfg : AppConfig}

/-- No directory that is made takes it away. -/
theorem BaseReady.created (h : BaseReady cfg.topo tree) (fs : FsAnswers) (pkg thread : Str) :
    BaseReady cfg.topo (createAll fs tree (threadAffinityRun (answers fs tree) pkg thread cfg cfg.topo).2) := by
  rcases made_cases fs tree pkg thread cfg with he | ⟨cpus, he⟩
  · rw [he]
    exact h
  · obtain ⟨hon, hsome, c, hc, hcpus, hmems⟩ := h
    obtain ⟨c', hc', he', hkeep⟩ := ensureCpusetDirIn_base fs cpus cfg.topo hc
    rw [he]
    exact ⟨hon, hsome, c', hc', he'.trans hcpus, hkeep hmems⟩

/-- A live thread that is put into the base directory has a mask of present CPUs. -/
theorem BaseReady.settled_mask {topo : CpuTopology} (h : BaseReady topo tree) {tid : Tid} {cpus : CpuSet}
    (ha : allow tid baseCpuset = true) (hne : cpus ≠ CpuSet.new) (hsub : cpus ⊆ topo.presentCpus) (x : Standing) :
    (settled allow topo tree tid [] cpus x).mask = cpus := by
  obtain ⟨hon, hsome, c, hc, hcpus, hmems⟩ := h
  have hgroup : tasksGroup [] = baseCpuset := rfl
  have hacc : accepts allow tree tid baseCpuset = true := by
    refine (Option.any_eq_true _ _).mpr ⟨c, hc, ?_⟩
    rw [ha, hcpus, decide_eq_true hsome, decide_eq_true hmems]
    rfl
  rw [settled_mask_iff]
  refine Or.inr ⟨hne, ?_⟩
  unfold allowedCpus moved
  rw [hgroup, hon, hacc, Bool.and_self, if_pos rfl]
  unfold groupCpus
  rw [hc]
  show cpus ⊆ c.cpus
  rw [hcpus]
  exact hsub

end

/-! ### One thread -/

section

variable (fs : FsAnswers) (allow : Tid → Str → Bool) {cfg : AppConfig} {pc : ProcCache} {s : AppliedMap × Placement}

/-- `task_apply` leaves the other threads alone, and its own when no rule binds it. -/
theorem taskApplyIn_frame {u tid pid : Tid} {pkg comm : Str} {htr trust : Bool}
    (h : u = tid → binding cfg cfg.topo pkg (threadName htr trust comm) = none) :
    (taskApplyIn fs allow pc tid pid pkg comm htr cfg trust s).2.1.tasks.lookup u = pc.tasks.lookup u ∧
      (taskApplyIn fs allow pc tid pid pkg comm htr cfg trust s).2.2.2.threads.lookup u = s.2.threads.lookup u := by
  have hne : ∀ r, threadAffinity (answers fs s.2.tree) pkg (threadName htr trust comm) cfg cfg.topo = some r →
      u ≠ tid := by
    intro r hr hu
    have hb := threadAffinity_binding (answers fs s.2.tree) pkg (threadName htr trust comm) cfg cfg.topo
    rw [hr, h hu] at hb
    cases hb
  have hcase := @taskApplyIn_case fs allow cfg pc s tid pid pkg comm htr trust
  generalize (taskApplyIn fs allow pc tid pid pkg comm htr cfg trust s).2.1 = pc',
    (taskApplyIn fs allow pc tid pid pkg comm htr cfg trust s).2.2.2 = w' at hcase ⊢
  cases hcase with
  | unruled => exact ⟨rfl, rfl⟩
  | kept => exact ⟨rfl, rfl⟩
  | gone hr hk hdead htree htasks hthreads => exact ⟨(htasks u).trans (if_neg (hne _ hr)), hthreads u⟩
  | bound hr hk hlive htree htasks hthreads =>
      exact ⟨(htasks u).trans (if_neg (hne _ hr)), (hthreads u).trans (if_neg (hne _ hr))⟩

/-- The kernel lets the thread be moved into any directory, and the device has the CPUs. -/
def Movable (allow : Tid → Str → Bool) (topo : CpuTopology) (u : Tid) (cpus : CpuSet) : Prop :=
  (∀ dir, allow u (tasksGroup dir) = true) ∧ cpus ⊆ topo.presentCpus

/-- The live thread is cached as a thread of the process, and stands under the CPUs of its entry if
it can be moved there. -/
def Stands (allow : Tid → Str → Bool) (topo : CpuTopology) (pid : Tid) (cpus : CpuSet) (isThreadRule : Bool) (u : Tid)
    (pc : ProcCache) (w : Placement) : Prop :=
  ∃ e x, pc.tasks.lookup u = some e ∧ e.pid = pid ∧ e.cpus = cpus ∧ e.isThreadRule = isThreadRule ∧
    w.threads.lookup u = some x ∧ (Movable allow topo u cpus → x.mask = cpus)

theorem Stands.placed {allow : Tid → Str → Bool} {topo : CpuTopology} {pid u : Tid} {cpus : CpuSet}
    {isThreadRule : Bool} {pc : ProcCache} {w : Placement} (h : Stands allow topo pid cpus isThreadRule u pc w)
    (hm : Movable allow topo u cpus) : u ∈ pc.tasks ∧ (w.threads.lookup u).map Standing.mask = some cpus := by
  obtain ⟨e, x, he, -, -, -, hx, hmask⟩ := h
  refine ⟨AList.lookup_isSome.mp (he ▸ rfl), ?_⟩
  rw [hx, Option.map_some, hmask hm]

/-- What a scan keeps on its way to the thread: the directories, and an entry that a new answer of
the same kind replaces. -/
structure OnTheWay (cfg : AppConfig) (isThreadRule : Bool) (u : Tid) (pc : ProcCache) (w : Placement) : Prop where
  rules : RulesReady cfg.topo cfg.rules w.tree
  base : BaseReady cfg.topo w.tree
  live : u ∈ w.threads
  entry : ∀ e, pc.tasks.lookup u = some e → e.isThreadRule = isThreadRule

/-- A binding names CPUs when there are any. -/
theorem binding_ne_new {topo : CpuTopology} {pkg thread : Str} {cpus : CpuSet} {isThreadRule : Bool}
    (hb : binding cfg topo pkg thread = some (cpus, isThreadRule)) (h : topo.presentCpus ≠ CpuSet.new) :
    cpus ≠ CpuSet.new := by
  unfold binding at hb
  dsimp only at hb
  split_ifs at hb with hnew
  · obtain rfl := congrArg Prod.fst (Option.some.inj hb)
    exact h
  · obtain rfl := congrArg Prod.fst (Option.some.inj hb)
    exact hnew

/-- `task_apply` gives a live thread the CPUs of its binding, unless it keeps the entry. -/
theorem stands_taskApplyIn (hm : cfg.topo.memsStr ≠ [])
    (hrules : RulesReady cfg.topo cfg.rules s.2.tree) (hbase : BaseReady cfg.topo s.2.tree) {tid pid : Tid}
    (hlive : tid ∈ s.2.threads) {pkg comm : Str} {htr trust isThreadRule : Bool} {cpus : CpuSet}
    (hentry : ∀ e, pc.tasks.lookup tid = some e → e.isThreadRule = true → isThreadRule = true)
    (hb : binding cfg cfg.topo pkg (threadName htr trust comm) = some (cpus, isThreadRule)) :
    Stands allow cfg.topo pid cpus isThreadRule tid (taskApplyIn fs allow pc tid pid pkg comm htr cfg trust s).2.1
      (taskApplyIn fs allow pc tid pid pkg comm htr cfg trust s).2.2.2 := by
  have hanswer := threadAffinity_binding (answers fs s.2.tree) pkg (threadName htr trust comm) cfg cfg.topo
  rw [hb] at hanswer
  have hcpus : cpus ≠ CpuSet.new := binding_ne_new hb hbase.some_cpu
  have hbase := hbase.created fs pkg (threadName htr trust comm)
  have hdir : ∀ r, threadAffinity (answers fs s.2.tree) pkg (threadName htr trust comm) cfg cfg.topo = some r →
      r.cpusetDir ≠ [] → _ := fun r hr hne => hasDir_threadAffinity hm hrules hr hne
  obtain ⟨x, hx⟩ := Option.isSome_iff_exists.mp (AList.lookup_isSome.mpr hlive)
  have hcase := @taskApplyIn_case fs allow cfg pc s tid pid pkg comm htr trust
  generalize createAll fs s.2.tree (threadAffinityRun (answers fs s.2.tree) pkg (threadName htr trust comm) cfg
    cfg.topo).2 = tree at hbase hdir hcase
  generalize (taskApplyIn fs allow pc tid pid pkg comm htr cfg trust s).2.1 = pc',
    (taskApplyIn fs allow pc tid pid pkg comm htr cfg trust s).2.2.2 = w' at hcase ⊢
  cases hcase with
  | unruled hr =>
      rw [hr] at hanswer
      cases hanswer
  | @kept r hr hk =>
      -- an entry that stays is a thread rule's, and the answer is another's
      obtain ⟨e, he, hold, hnew⟩ := keeps_mem hk
      rw [hr] at hanswer
      have hflag : r.isThreadRule = isThreadRule := congrArg Prod.snd (Option.some.inj hanswer)
      rw [hnew, hentry e he hold] at hflag
      cases hflag
  | gone hr hk hdead => exact absurd hlive hdead
  | @bound r _ _ hr hk _ htree htasks hthreads =>
      rw [hr] at hanswer
      obtain ⟨hc, hflag⟩ := Prod.mk.inj (Option.some.inj hanswer)
      refine ⟨entryOf pid r, settled allow cfg.topo tree tid r.cpusetDir cpus x, (htasks tid).trans (if_pos rfl), rfl,
        hc, hflag, ?_, ?_⟩
      · rw [hthreads, if_pos rfl, hx, ← hc]
        rfl
      · rintro ⟨hallow, hsub⟩
        by_cases hne : r.cpusetDir = []
        · rw [hne]
          exact hbase.settled_mask (hallow []) hcpus hsub x
        · obtain ⟨hon, hmade⟩ := hdir r hr hne
          have hmask := hmade.settled_mask hon (hallow r.cpusetDir) x
          rw [hc] at hmask
          exact hmask

theorem taskApplyIn_tree (tid pid : Tid) (pkg comm : Str) (htr trust : Bool) :
    (taskApplyIn fs allow pc tid pid pkg comm htr cfg trust s).2.2.2.tree =
      createAll fs s.2.tree
        (threadAffinityRun (answers fs s.2.tree) pkg (threadName htr trust comm) cfg cfg.topo).2 := by
  have hcase := @taskApplyIn_case fs allow cfg pc s tid pid pkg comm htr trust
  generalize (taskApplyIn fs allow pc tid pid pkg comm htr cfg trust s).2.1 = pc',
    (taskApplyIn fs allow pc tid pid pkg comm htr cfg trust s).2.2.2 = w' at hcase ⊢
  cases hcase with
  | unruled => rfl
  | kept => rfl
  | gone hr hk hdead htree => exact htree
  | bound hr hk hlive htree => exact htree

/-- `task_apply` on any thread keeps what the scan needs. -/
theorem onTheWay_taskApplyIn (hm : cfg.topo.memsStr ≠ []) {u tid pid : Tid} {pkg comm : Str}
    {htr trust isThreadRule : Bool} (h : OnTheWay cfg isThreadRule u pc s.2)
    (hown : u = tid → ∃ cpus, Stands allow cfg.topo pid cpus isThreadRule tid
      (taskApplyIn fs allow pc tid pid pkg comm htr cfg trust s).2.1
      (taskApplyIn fs allow pc tid pid pkg comm htr cfg trust s).2.2.2) :
    OnTheWay cfg isThreadRule u (taskApplyIn fs allow pc tid pid pkg comm htr cfg trust s).2.1
      (taskApplyIn fs allow pc tid pid pkg comm htr cfg trust s).2.2.2 := by
  refine ⟨(touches_taskApplyIn fs allow pc s hm h.rules tid pid pkg comm htr trust).rules h.rules, ?_, ?_, ?_⟩
  · rw [taskApplyIn_tree]
    exact h.base.created fs pkg (threadName htr trust comm)
  · have hlive := congrFun (taskApplyIn_fst fs allow pc tid pid pkg comm htr cfg trust s).2 u
    exact of_decide_eq_true (hlive.trans (decide_eq_true h.live))
  · intro e he
    by_cases hu : u = tid
    · obtain ⟨cpus, e', x, he', -, -, hflag, -⟩ := hown hu
      rw [hu, he'] at he
      exact Option.some.inj he ▸ hflag
    · rw [(taskApplyIn_frame fs allow fun h => absurd h hu).1] at he
      exact h.entry e he

end

/-! ### All threads of all processes -/

section

variable (fs : FsAnswers) (allow : Tid → Str → Bool) {cfg : AppConfig} {u pid : Tid} {cpus : CpuSet}
  {isThreadRule : Bool} {t : ScanTarget}

/-- Scanning a thread leaves the others alone, and its own when no rule binds it. -/
theorem scanTaskIn_frame (t : ScanTarget) (x : TidReading) (acc : ProcCache × AppliedMap × Placement)
    (h : x.tid = u → binding cfg cfg.topo t.pkg (t.threadName x) = none) :
    (scanTaskIn fs allow cfg t.pid t.pkg t.htr acc x).1.tasks.lookup u = acc.1.tasks.lookup u ∧
      (scanTaskIn fs allow cfg t.pid t.pkg t.htr acc x).2.2.threads.lookup u = acc.2.2.threads.lookup u :=
  taskApplyIn_frame fs allow fun hu => h hu.symm

/-- The name of a thread is read when its package has thread rules. -/
theorem ScanTarget.threadName_eq (x : TidReading) (h : t.htr = cfg.pkgHasThreadRules t.pkg) :
    t.threadName x = if cfg.pkgHasThreadRules t.pkg then (tidComm x.comm).getD [] else [] := by
  rw [ScanTarget.threadName, threadName_scanName, h]

/-- The readings of the thread in a process are bound so. -/
def ScanTarget.Binds (cfg : AppConfig) (u pid : Tid) (cpus : CpuSet) (isThreadRule : Bool) (t : ScanTarget) : Prop :=
  ∀ tids, t.tids = some tids → ∀ x ∈ tids, x.tid = u →
    t.pid = pid ∧ binding cfg cfg.topo t.pkg (t.threadName x) = some (cpus, isThreadRule)

theorem stands_scanProcIn (hm : cfg.topo.memsStr ≠ [])
    (hb : t.Binds cfg u pid cpus isThreadRule) (acc : ProcCache × AppliedMap × Placement)
    (h : OnTheWay cfg isThreadRule u acc.1 acc.2.2) :
    OnTheWay cfg isThreadRule u (scanProcIn fs allow cfg acc t).1 (scanProcIn fs allow cfg acc t).2.2 ∧
      (Stands allow cfg.topo pid cpus isThreadRule u acc.1 acc.2.2 ∨ t.Reads u →
        Stands allow cfg.topo pid cpus isThreadRule u (scanProcIn fs allow cfg acc t).1 (scanProcIn fs allow cfg acc t).2.2) := by
  unfold scanProcIn
  cases htids : t.tids with
  | none =>
      refine ⟨h, fun hs => hs.resolve_right ?_⟩
      rintro ⟨tids, htids', -⟩
      rw [htids] at htids'
      cases htids'
  | some tids =>
      have hown : ∀ x ∈ tids, x.tid = u → ∀ acc : ProcCache × AppliedMap × Placement,
          OnTheWay cfg isThreadRule u acc.1 acc.2.2 →
          Stands allow cfg.topo pid cpus isThreadRule u (scanTaskIn fs allow cfg t.pid t.pkg t.htr acc x).1
            (scanTaskIn fs allow cfg t.pid t.pkg t.htr acc x).2.2 := by
        intro x hx hu acc hacc
        obtain ⟨hpid, hbind⟩ := hb tids htids x hx hu
        subst hu
        rw [← hpid]
        exact stands_taskApplyIn fs allow hm hacc.rules hacc.base hacc.live
          (fun e he hold => (hacc.entry e he).symm.trans hold) hbind
      have hway : ∀ x ∈ tids, ∀ acc : ProcCache × AppliedMap × Placement, OnTheWay cfg isThreadRule u acc.1 acc.2.2 →
          OnTheWay cfg isThreadRule u (scanTaskIn fs allow cfg t.pid t.pkg t.htr acc x).1
            (scanTaskIn fs allow cfg t.pid t.pkg t.htr acc x).2.2 := by
        intro x hx acc hacc
        refine onTheWay_taskApplyIn fs allow hm hacc fun hu => ⟨cpus, ?_⟩
        have hs := hown x hx hu.symm acc hacc
        obtain ⟨hpid, -⟩ := hb tids htids x hx hu.symm
        rw [← hpid, hu] at hs
        exact hs
      have hkeep : ∀ x ∈ tids, ¬ x.tid = u → ∀ acc : ProcCache × AppliedMap × Placement,
          OnTheWay cfg isThreadRule u acc.1 acc.2.2 →
          Stands allow cfg.topo pid cpus isThreadRule u acc.1 acc.2.2 →
          Stands allow cfg.topo pid cpus isThreadRule u (scanTaskIn fs allow cfg t.pid t.pkg t.htr acc x).1
            (scanTaskIn fs allow cfg t.pid t.pkg t.htr acc x).2.2 := by
        rintro x - hu acc - ⟨e, y, he, hpid, hc, hflag, hy, hmask⟩
        obtain ⟨htasks, hthreads⟩ := @scanTaskIn_frame fs allow cfg u t x acc fun h => absurd h hu
        exact ⟨e, y, htasks.trans he, hpid, hc, hflag, hthreads.trans hy, hmask⟩
      have hall := Sweep.foldl_reach (I := fun acc => OnTheWay cfg isThreadRule u acc.1 acc.2.2)
        (P := fun acc => Stands allow cfg.topo pid cpus isThreadRule u acc.1 acc.2.2)
        (fun x : TidReading => x.tid = u) tids acc hway hkeep hown h
      have hkept := Sweep.foldl_reach (I := fun acc => OnTheWay cfg isThreadRule u acc.1 acc.2.2)
        (P := fun _ => True) (fun x : TidReading => x.tid = u) tids acc
        hway (fun _ _ _ _ _ _ => trivial) (fun _ _ _ _ _ => trivial) h (.inl trivial)
      refine ⟨⟨hkept.1.rules, hkept.1.base, hkept.1.live, hkept.1.entry⟩, fun hs => ?_⟩
      refine (hall (hs.imp_right fun hr => ?_)).2
      obtain ⟨tids', htids', hr⟩ := hr
      rw [htids] at htids'
      exact Option.some.inj htids' ▸ hr

/-- What the daemon and the kernel have of a thread. -/
def heldIn (u : Tid) (acc : ProcCache × AppliedMap × Placement) : Option TaskEntry × Option Standing :=
  (acc.1.tasks.lookup u, acc.2.2.threads.lookup u)

/-- Threads that no rule binds are left alone. -/
theorem scanProcIn_frame (h : ∀ tids, t.tids = some tids → ∀ x ∈ tids, x.tid = u →
      binding cfg cfg.topo t.pkg (t.threadName x) = none) (acc : ProcCache × AppliedMap × Placement) :
    (scanProcIn fs allow cfg acc t).1.tasks.lookup u = acc.1.tasks.lookup u ∧
      (scanProcIn fs allow cfg acc t).2.2.threads.lookup u = acc.2.2.threads.lookup u := by
  unfold scanProcIn
  cases htids : t.tids with
  | none => exact ⟨rfl, rfl⟩
  | some tids =>
      have hstep : ∀ x ∈ tids, ∀ acc, heldIn u (scanTaskIn fs allow cfg t.pid t.pkg t.htr acc x) = heldIn u acc := by
        intro x hx acc
        obtain ⟨htasks, hthreads⟩ := scanTaskIn_frame fs allow t x acc (h tids htids x hx)
        exact Prod.ext htasks hthreads
      exact Prod.mk.inj (Sweep.foldl_frame (heldIn u) tids acc hstep)

end

namespace Placed

/-- **A scan puts the rules in force.**  On a device with cpusets, a scan of a snapshot of `/proc`
caches a live thread of a configured process exactly when the rules bind it, and the thread has the
CPUs of its binding afterwards, if they are present and the kernel lets it be moved; a thread that is
in no configured process, or not bound, is not moved. -/
theorem scan_enforces (parse : Str → Option JsonValue) (allow : Tid → Str → Bool) (s s₁ : Placed) (fs : FsAnswers)
    (entries : List ProcReading) (hs : Runs.Reachable (step parse allow) (fun _ _ => True) (Init parse) s)
    (hsnap : Snapshot entries) (hbase : BaseReady s.cfg.topo s.w.tree)
    (ha : s.step parse allow (.scan fs (some entries)) = some s₁) :
    (∀ q p tids x cpus isThreadRule, Interested s.cfg entries q p tids → x ∈ tids → x.tid ∈ s.w.threads →
      binding s.cfg s.cfg.topo p (if s.cfg.pkgHasThreadRules p then (tidComm x.comm).getD [] else []) =
        some (cpus, isThreadRule) →
      Stands allow s.cfg.topo q cpus isThreadRule x.tid s₁.pc s₁.w) ∧
    ∀ u, (∀ q p tids x, Interested s.cfg entries q p tids → x ∈ tids → x.tid = u →
        binding s.cfg s.cfg.topo p (if s.cfg.pkgHasThreadRules p then (tidComm x.comm).getD [] else []) = none) →
      u ∉ s₁.pc.tasks ∧ s₁.w.threads.lookup u = s.w.threads.lookup u := by
  have hstocked : Stocked s := hs.invariant (fun _ => stocked_init) fun _ _ _ h _ hstep => h.step hstep
  obtain rfl := Option.some.inj ha
  constructor
  · intro q p tids x cpus isThreadRule hi hx hlive hb
    have ht : (⟨q, p, s.cfg.pkgHasThreadRules p, some tids⟩ : ScanTarget) ∈ entries.filterMap (scanTarget s.cfg) :=
      (mem_scanTargets rfl).mpr ⟨hi, rfl⟩
    -- a snapshot has one reading of the thread
    have hbinds : ∀ t ∈ entries.filterMap (scanTarget s.cfg), t.Binds s.cfg x.tid q cpus isThreadRule := by
      intro t ht' tids' htids' x' hx' hu
      obtain ⟨rfl, rfl⟩ := hsnap.reading_unique ht' ht htids' rfl hx' hx hu
      exact ⟨rfl, (congrArg _ (ScanTarget.threadName_eq x' rfl)).trans hb⟩
    have hway : OnTheWay s.cfg isThreadRule x.tid s.pc.clear s.w :=
      ⟨hstocked.rules, hbase, hlive, fun e he => by cases he⟩
    exact (Sweep.foldl_reach (I := fun acc => OnTheWay s.cfg isThreadRule x.tid acc.1 acc.2.2)
      (P := fun acc => Stands allow s.cfg.topo q cpus isThreadRule x.tid acc.1 acc.2.2) (ScanTarget.Reads x.tid)
      (entries.filterMap (scanTarget s.cfg)) (s.pc.clear, appliedClear s.applied, s.w)
      (fun t ht acc h => (stands_scanProcIn fs allow hstocked.mems (hbinds t ht) acc h).1)
      (fun t ht _ acc h hp => (stands_scanProcIn fs allow hstocked.mems (hbinds t ht) acc h).2 (.inl hp))
      (fun t ht hr acc h => (stands_scanProcIn fs allow hstocked.mems (hbinds t ht) acc h).2 (.inr hr))
      hway (.inr ⟨_, ht, tids, rfl, x, hx, rfl⟩)).2
  · intro u hu
    have hstep : ∀ t ∈ entries.filterMap (scanTarget s.cfg), ∀ acc,
        heldIn u (scanProcIn fs allow s.cfg acc t) = heldIn u acc := by
      intro t ht acc
      obtain ⟨htasks, hthreads⟩ := scanProcIn_frame fs allow (fun tids htids x hx hxu => by
        obtain ⟨hi, hhtr⟩ := (mem_scanTargets htids).mp ht
        exact (congrArg _ (ScanTarget.threadName_eq x hhtr)).trans (hu t.pid t.pkg tids x hi hx hxu)) acc
      exact Prod.ext htasks hthreads
    obtain ⟨htasks, hthreads⟩ := Prod.mk.inj (Sweep.foldl_frame (heldIn u) (entries.filterMap (scanTarget s.cfg))
      (s.pc.clear, appliedClear s.applied, s.w) hstep)
    exact ⟨AList.lookup_eq_none.mp htasks, hthreads⟩

/-- What `init_cpu_topo` finds and leaves on a device with eight CPUs. -/
def eightCores : CpuTopology × CpusetTree := initCpuTopo .allows ∅ (some "0-7\n".toList) none true true

/-- What it loads of its file there. -/
def deployedFile : Option AppConfig × CpusetTree :=
  loadIn .allows (parseOf [oneEntry]) eightCores.1 (some oneEntry.1) (some 0) eightCores.2

/-- A daemon that has loaded its file, and one thread. -/
def deployed : Placed :=
  { cfg := deployedFile.1.getD oneRule
    pc := ProcCache.new
    applied := ∅
    w := ⟨deployedFile.2, (∅ : KeyMap Tid Standing).insert 10 ⟨fromRange "0-7".toList, baseCpuset⟩⟩ }

theorem init_deployed : Init (parseOf [oneEntry]) deployed := by
  have hsome : deployedFile.1.isSome = true := by decide +kernel
  obtain ⟨cfg, hcfg⟩ := Option.isSome_iff_exists.mp hsome
  have hsame : deployed.cfg = cfg := congrArg (fun o => o.getD oneRule) hcfg
  have htopo : cfg.topo = eightCores.1 := (rulesReady_loadIn (by decide +kernel) hcfg).1
  refine ⟨by decide +kernel, rfl, .allows, some oneEntry.1, some 0, eightCores.2, cfg, [], ?_, hsame⟩
  have htree : deployedFile.2 = deployed.w.tree := by
    unfold deployed
    dsimp only
  have hload : deployedFile = (some cfg, deployedFile.2) := by
    rw [← hcfg, Prod.mk.eta]
  rw [hsame, htopo, ← htree]
  exact hload

theorem deployed_base : BaseReady deployed.cfg.topo deployed.w.tree :=
  ⟨by decide +kernel, by decide +kernel, ⟨fromRange "0-7".toList, "0".toList⟩, by decide +kernel, by decide +kernel,
    by decide⟩

theorem deployed_movable : Movable (fun _ _ => true) deployed.cfg.topo 10 (fromRange "0-3".toList) :=
  ⟨fun _ => rfl, inter_eq_left.mp (by decide +kernel)⟩

/-- The thread is the only one of the process `com.a`, which the file puts on the CPUs 0 to 3. -/
theorem scan_enforces_deployed :
    ∃ s₁, deployed.step (parseOf [oneEntry]) (fun _ _ => true) (.scan .allows ProcState.oneProcess.dir) = some s₁ ∧
      10 ∈ s₁.pc.tasks ∧ (s₁.w.threads.lookup 10).map Standing.mask = some (fromRange "0-3".toList) := by
  have hi : Interested deployed.cfg (ProcState.oneProcess.dir.getD []) 10 "com.a".toList [⟨10, none, allAlive⟩] :=
    ⟨_, List.mem_cons_self, rfl, by decide +kernel, by decide +kernel, rfl⟩
  have hstands : ∀ s₁, deployed.step (parseOf [oneEntry]) (fun _ _ => true) (.scan .allows ProcState.oneProcess.dir) =
      some s₁ → Stands (fun _ _ => true) deployed.cfg.topo 10 (fromRange "0-3".toList) false 10 s₁.pc s₁.w :=
    fun s₁ h =>
      (scan_enforces (parseOf [oneEntry]) (fun _ _ => true) deployed s₁ .allows (ProcState.oneProcess.dir.getD [])
        ⟨deployed, init_deployed, .refl _⟩ oneProcess_snapshot deployed_base h).1 10 "com.a".toList _
        ⟨10, none, allAlive⟩ _ _ hi List.mem_cons_self (by decide +kernel) (by decide +kernel)
  exact ⟨_, rfl, (hstands _ rfl).placed deployed_movable⟩

end Placed

end AetherOptExt
