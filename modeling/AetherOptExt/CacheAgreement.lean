import AetherOptExt.Daemon
import AetherOptExt.Lib.Runs

/-! # Do the two maps of the cache agree?

A process should be in `pkgs` exactly while one of its threads is in `tasks`
(`ProcCache.Agree`).  The daemon changes the cache by scans, events and corrections, each of
them here one step of `cacheStep`, with any answers of the operating system.

Only `task_del` is written to keep the agreement.  For the other operations `KeepsAgreement`
says on which inputs they do: an event must not drop the package of a process that keeps
threads, nor map a process none of whose threads ends up bound, nor take the last thread of
another process; a scan must bind a thread of every process it maps.  For events the condition
is exact (`eventDispatch_agree_iff`), and along runs whose steps all meet it the maps agree in
every state (`agree_along_runs`). -/

namespace AetherOptExt

namespace ProcCache

/-- Another thread than `tid` is bound to the process. -/
def OtherTask (pc : ProcCache) (tid pid : Tid) : Prop := ∃ u, u ≠ tid ∧ pc.BoundTo u pid

theorem hasTask_iff_other {pc : ProcCache} (tid pid : Tid) :
    pc.HasTask pid ↔ pc.OtherTask tid pid ∨ pc.BoundTo tid pid := by
  constructor
  · rintro ⟨u, hu⟩
    rcases eq_or_ne u tid with rfl | hne
    · exact Or.inr hu
    · exact Or.inl ⟨u, hne, hu⟩
  · rintro (⟨u, -, hu⟩ | hu)
    · exact ⟨u, hu⟩
    · exact ⟨tid, hu⟩

/-- After a change at `tid` alone, the other threads are bound as before. -/
theorem otherTask_congr {pc pc' : ProcCache} {tid : Tid}
    (h : ∀ u, u ≠ tid → pc'.tasks.lookup u = pc.tasks.lookup u) (pid : Tid) :
    pc'.OtherTask tid pid ↔ pc.OtherTask tid pid := by
  refine exists_congr fun u => and_congr_right fun hne => ?_
  unfold BoundTo
  rw [h u hne]

end ProcCache

open ProcCache

/-! ### The condition on an event -/

/-- The condition on the `task_apply` of an event: when no rule decides, or the old binding is
kept, the process must have a bound thread already; otherwise the thread must not be the last
one of another process, and when it has exited its own process must keep another. -/
def ApplyKeeps (env : Env) (pc : ProcCache) (cfg : AppConfig) (tid pid : Tid) (pkg name : Str) : Prop :=
  match threadAffinity env.createDir pkg name cfg cfg.topo with
  | none => pc.HasTask pid
  | some r =>
      if pc.keeps tid r then pc.HasTask pid
      else (∀ q, pc.BoundTo tid q → q ≠ pid → pc.OtherTask tid q) ∧
        (affinitySet env tid r.cpus r.cpusetDir cfg.topo = true → pc.OtherTask tid pid)

/-- The condition on an event. -/
def EventKeeps (env : Env) (ev : ProcEvent) (cfg : AppConfig) (pc : ProcCache) : Prop :=
  if ev.eventType = eventExit then ev.tid = ev.pid → ¬ pc.OtherTask ev.tid ev.pid
  else if Binds ev then
    match resolved pc cfg ev with
    | none => ev.eventType = eventExec → ¬ pc.OtherTask ev.tid ev.pid
    | some p => ApplyKeeps env pc cfg ev.tid ev.pid p.1 (eventName ev p)
  else True

/-! ### Events -/

section

variable {env : Env} {cfg : AppConfig} {pc pc' : ProcCache} {applied : AppliedMap} {tid pid : Tid}

/-- Mapping a process keeps the agreement when it ends with a bound thread and the other
processes keep theirs. -/
theorem agree_of_mapped (h : pc.Agree) (hp : ∀ q, q ∈ pc'.pkgs ↔ q = pid ∨ q ∈ pc.pkgs) :
    pc'.Agree ↔ pc'.HasTask pid ∧ ∀ q, q ≠ pid → (pc'.HasTask q ↔ pc.HasTask q) := by
  constructor
  · intro h'
    refine ⟨(h' pid).mp ((hp pid).mpr (Or.inl rfl)), fun q hq => ?_⟩
    rw [← h' q, hp q, ← h q]
    exact or_iff_right hq
  · rintro ⟨h1, h2⟩ q
    rw [hp q]
    rcases eq_or_ne q pid with rfl | hq
    · exact iff_of_true (Or.inl rfl) h1
    · rw [or_iff_right hq, h2 q hq]
      exact h q

/-- `task_apply` on a freshly mapped process keeps the agreement exactly under `ApplyKeeps`. -/
theorem applyCase_agree_iff (h : pc.Agree) {pc₁ : ProcCache} (ht : pc₁.tasks = pc.tasks)
    (hp : ∀ q, q ∈ pc₁.pkgs ↔ q = pid ∨ q ∈ pc.pkgs) {pkg name : Str} {out : Bool × ProcCache × AppliedMap}
    (hc : ApplyCase env.createDir pc₁ tid pid pkg name cfg (eventAffinityApply env cfg.topo) applied out) :
    out.2.1.Agree ↔ ApplyKeeps env pc cfg tid pid pkg name := by
  have hpk : ∀ q, q ∈ out.2.1.pkgs ↔ q = pid ∨ q ∈ pc.pkgs := fun q => by rw [taskApply_pkgs hc, hp q]
  have hne : ∀ u, u ≠ tid → out.2.1.tasks.lookup u = pc.tasks.lookup u := fun u hu => by
    rw [taskApply_lookup_ne hc hu, ht]
  have hbound : ∀ u q, pc₁.BoundTo u q ↔ pc.BoundTo u q := fun u q => by
    unfold BoundTo
    rw [ht]
  have hhas : ∀ q, pc₁.HasTask q ↔ pc.HasTask q := fun q => exists_congr fun u => hbound u q
  have hkeeps : ∀ r, pc₁.keeps tid r = pc.keeps tid r := fun r => by
    unfold keeps
    rw [ht]
  rw [agree_of_mapped h hpk]
  unfold ApplyKeeps
  cases hc with
  | unruled hr =>
      rw [hr]
      simp only
      rw [hhas pid]
      exact and_iff_left fun q _ => hhas q
  | kept hr hk =>
      rw [hr]
      simp only
      rw [if_pos (hkeeps _ ▸ hk), hhas pid]
      exact and_iff_left fun q _ => hhas q
  | @gone r hr hk hd =>
      rw [hr]
      simp only
      rw [if_neg (by rw [← hkeeps, hk]; exact Bool.false_ne_true), and_comm]
      have hnb : ∀ q, ¬ (⟨pc₁.pkgs, pc₁.tasks.erase tid⟩ : ProcCache).BoundTo tid q := by
        rintro q ⟨e, he, -⟩
        rw [KeyMap.lookup_erase, if_pos rfl] at he
        cases he
      have hafter : ∀ q, (⟨pc₁.pkgs, pc₁.tasks.erase tid⟩ : ProcCache).HasTask q ↔ pc.OtherTask tid q := fun q => by
        rw [hasTask_iff_other tid q, or_iff_left (hnb q)]
        exact otherTask_congr hne q
      refine and_congr (forall_congr' fun q => ?_) ?_
      · rw [hafter q, hasTask_iff_other tid q]
        tauto
      · rw [hafter pid]
        rw [eventAffinityApply_fst] at hd
        simp [hd]
  | @bound r hr hk hd =>
      rw [hr]
      simp only
      rw [if_neg (by rw [← hkeeps, hk]; exact Bool.false_ne_true)]
      rw [eventAffinityApply_fst] at hd
      have hself : ∀ q, (⟨pc₁.pkgs, (pc₁.tasks.erase tid).insert tid (entryOf pid r)⟩ : ProcCache).BoundTo tid q ↔
          q = pid := fun q => by
        unfold BoundTo
        rw [KeyMap.lookup_insert, if_pos rfl]
        constructor
        · rintro ⟨e, he, rfl⟩
          obtain rfl := Option.some.inj he
          rfl
        · rintro rfl
          exact ⟨_, rfl, rfl⟩
      have hafter : ∀ q, (⟨pc₁.pkgs, (pc₁.tasks.erase tid).insert tid (entryOf pid r)⟩ : ProcCache).HasTask q ↔
          pc.OtherTask tid q ∨ q = pid := fun q => by
        rw [hasTask_iff_other tid q, hself q]
        exact or_congr_left (otherTask_congr hne q)
      rw [and_iff_right ((hafter pid).mpr (Or.inr rfl)), and_iff_left (by simp [hd])]
      refine forall_congr' fun q => ?_
      rw [hafter q, hasTask_iff_other tid q]
      tauto

/-- Dropping a process's package and removing a thread keeps the agreement exactly when no
other thread of the process is bound. -/
theorem drop_taskDel_agree_iff (h : pc.Agree) :
    (({ pc with pkgs := pc.pkgs.erase pid } : ProcCache).taskDel tid).Agree ↔ ¬ pc.OtherTask tid pid := by
  have hb : ∀ u q, ({ pc with pkgs := pc.pkgs.erase pid } : ProcCache).BoundTo u q ↔ pc.BoundTo u q :=
    fun _ _ => Iff.rfl
  have hafter : ∀ q, (({ pc with pkgs := pc.pkgs.erase pid } : ProcCache).taskDel tid).HasTask q ↔
      pc.OtherTask tid q := fun q => by
    unfold HasTask OtherTask
    simp only [boundTo_taskDel, hb]
  have hmem : ∀ q, q ∈ ({ pc with pkgs := pc.pkgs.erase pid } : ProcCache).pkgs ↔ q ≠ pid ∧ q ∈ pc.pkgs :=
    fun q => AList.mem_erase
  unfold Agree
  simp only [mem_pkgs_taskDel, hafter, hmem, hb]
  constructor
  · intro hag ho
    exact ((hag pid).mpr ho).1.1 rfl
  · intro hno q
    rcases eq_or_ne q pid with rfl | hq
    · exact iff_of_false (fun hx => hx.1.1 rfl) hno
    · rw [h q, hasTask_iff_other tid q]
      tauto

/-- **An event keeps the agreement exactly under `EventKeeps`.** -/
theorem eventDispatch_agree_iff (h : pc.Agree) (ev : ProcEvent) :
    (eventDispatch env ev cfg pc applied).1.Agree ↔ EventKeeps env ev cfg pc := by
  have hc := eventDispatch_case env ev cfg pc applied
  generalize eventDispatch env ev cfg pc applied = out at hc ⊢
  unfold EventKeeps
  cases hc with
  | exit he =>
      rw [if_pos he]
      split_ifs with htp
      · rw [drop_taskDel_agree_iff h, imp_iff_right htp]
      · exact iff_of_true (h.taskDel ev.tid) fun he => absurd he htp
  | dropped he hr =>
      rw [if_neg (by rw [he]; decide), if_pos (show Binds ev from Or.inl he), hr, imp_iff_right he]
      exact drop_taskDel_agree_iff h
  | unresolved he hr =>
      have hne : ev.eventType ≠ eventExit ∧ ev.eventType ≠ eventExec := by
        rcases he with he | he
        · rw [he]; decide
        · rw [he]; decide
      rw [if_neg hne.1, if_pos (show Binds ev from Or.inr he), hr]
      exact iff_of_true h fun hx => absurd hx hne.2
  | applied hb hr ht hp hc =>
      have hne : ev.eventType ≠ eventExit := by
        rcases hb with hb | hb | hb
        · rw [hb]; decide
        · rw [hb]; decide
        · rw [hb]; decide
      rw [if_neg hne, if_pos hb, hr]
      refine applyCase_agree_iff h ht (fun q => ?_) hc
      rw [KeyMap.mem_iff_lookup, hp q]
      split_ifs with hq
      · simp [hq]
      · rw [← KeyMap.mem_iff_lookup, or_iff_right hq]
  | ignored he hb =>
      rw [if_neg he, if_neg hb]
      exact iff_of_true h trivial

end

/-! ### The scan -/

/-- The threads a scan reads, in order. -/
def scannedTids (ts : List ScanTarget) : List Tid := ts.flatMap (fun t => (t.tids.getD []).map TidReading.tid)

/-- A reading that ends with the thread bound, when the thread was not bound before. -/
def ReadingBinds (cfg : AppConfig) (t : ScanTarget) (x : TidReading) : Prop :=
  ∃ r, threadAffinity x.env.createDir t.pkg (threadName t.htr true (scanName t.htr x.comm)) cfg cfg.topo = some r ∧
    affinitySet x.env x.tid r.cpus r.cpusetDir cfg.topo = false

/-- The condition on a scan: of every process whose threads it lists, it binds one that it
reads only once. -/
def ScanKeeps (cfg : AppConfig) (dir : Option (List ProcReading)) : Prop :=
  ∀ t ∈ (dir.getD []).filterMap (scanTarget cfg), ∀ tids, t.tids = some tids →
    ∃ x ∈ tids, ReadingBinds cfg t x ∧
      (scannedTids ((dir.getD []).filterMap (scanTarget cfg))).count x.tid = 1

section

variable {cfg : AppConfig}

theorem foldl_scanTask_lookup_ne {pid : Tid} {pkg : Str} {htr : Bool} {u : Tid} (tids : List TidReading)
    (acc : ProcCache × AppliedMap) (h : ∀ x ∈ tids, x.tid ≠ u) :
    (tids.foldl (scanTask cfg pid pkg htr) acc).1.tasks.lookup u = acc.1.tasks.lookup u :=
  Sweep.foldl_frame (fun acc : ProcCache × AppliedMap => acc.1.tasks.lookup u) tids acc fun x hx _ =>
    taskApply_lookup_ne (taskApply_case ..) (h x hx).symm

theorem scanProc_tasks_lookup_ne {t : ScanTarget} {u : Tid} (acc : ProcCache × AppliedMap)
    (h : u ∉ (t.tids.getD []).map TidReading.tid) :
    (scanProc cfg acc t).1.tasks.lookup u = acc.1.tasks.lookup u := by
  unfold scanProc
  cases ht : t.tids with
  | none => rfl
  | some tids =>
      rw [ht] at h
      exact foldl_scanTask_lookup_ne tids acc fun x hx he => h (List.mem_map.mpr ⟨x, hx, he⟩)

/-- Threads that a scan does not read stay as they are. -/
theorem foldl_scanProc_tasks_lookup_ne {u : Tid} (ts : List ScanTarget) (acc : ProcCache × AppliedMap)
    (h : u ∉ scannedTids ts) : (ts.foldl (scanProc cfg) acc).1.tasks.lookup u = acc.1.tasks.lookup u :=
  Sweep.foldl_frame (fun acc : ProcCache × AppliedMap => acc.1.tasks.lookup u) ts acc fun t ht acc =>
    scanProc_tasks_lookup_ne acc fun hu => h (List.mem_flatMap.mpr ⟨t, ht, hu⟩)

/-- A reading that binds enters a thread that was not bound. -/
theorem scanTask_boundTo {t : ScanTarget} {x : TidReading} (acc : ProcCache × AppliedMap)
    (hb : ReadingBinds cfg t x) (hnone : acc.1.tasks.lookup x.tid = none) :
    (scanTask cfg t.pid t.pkg t.htr acc x).1.BoundTo x.tid t.pid := by
  obtain ⟨r, hr, ha⟩ := hb
  have hc := taskApply_case x.env.createDir acc.1 x.tid t.pid t.pkg (scanName t.htr x.comm) t.htr cfg true
    (eventAffinityApply x.env cfg.topo) acc.2
  unfold scanTask
  generalize acc.1.taskApply x.env.createDir x.tid t.pid t.pkg (scanName t.htr x.comm) t.htr cfg true
    (eventAffinityApply x.env cfg.topo) acc.2 = out at hc ⊢
  cases hc with
  | unruled h => rw [hr] at h; cases h
  | kept h hk =>
      obtain ⟨e, he, -⟩ := keeps_mem hk
      rw [hnone] at he
      cases he
  | gone h hk hd =>
      obtain rfl := Option.some.inj (hr.symm.trans h)
      rw [eventAffinityApply_fst, ha] at hd
      cases hd
  | @bound r' h hk hd => exact ⟨entryOf t.pid r', AList.lookup_insert _, rfl⟩

/-- A thread that the scan reads once, and binds, is bound at its end. -/
theorem foldl_scanProc_boundTo {ts : List ScanTarget} {t : ScanTarget} (ht : t ∈ ts) {tids : List TidReading}
    (htids : t.tids = some tids) {x : TidReading} (hx : x ∈ tids) (hb : ReadingBinds cfg t x)
    (honce : (scannedTids ts).count x.tid = 1) (acc : ProcCache × AppliedMap)
    (hnone : acc.1.tasks.lookup x.tid = none) :
    (ts.foldl (scanProc cfg) acc).1.BoundTo x.tid t.pid := by
  obtain ⟨pre, post, rfl⟩ := List.append_of_mem ht
  obtain ⟨as, bs, rfl⟩ := List.append_of_mem hx
  simp only [scannedTids, List.flatMap_append, List.flatMap_cons, htids, Option.getD_some, List.map_append,
    List.map_cons, List.count_append, List.count_cons_self] at honce
  have hpre : x.tid ∉ scannedTids pre := List.count_eq_zero.mp (by rw [scannedTids]; omega)
  have hpost : x.tid ∉ scannedTids post := List.count_eq_zero.mp (by rw [scannedTids]; omega)
  have has : x.tid ∉ as.map TidReading.tid := List.count_eq_zero.mp (by omega)
  have hbs : x.tid ∉ bs.map TidReading.tid := List.count_eq_zero.mp (by omega)
  have hmid : ∀ acc' : ProcCache × AppliedMap, acc'.1.tasks.lookup x.tid = none →
      (scanProc cfg acc' t).1.BoundTo x.tid t.pid := by
    intro acc' hn
    unfold scanProc
    rw [htids]
    simp only [List.foldl_append, List.foldl_cons]
    have hn' := @foldl_scanTask_lookup_ne cfg t.pid t.pkg t.htr x.tid as acc'
      (fun y hy he => has (List.mem_map.mpr ⟨y, hy, he⟩))
    obtain ⟨e, he, hp⟩ := scanTask_boundTo _ hb (hn'.trans hn)
    refine ⟨e, ?_, hp⟩
    rw [← he]
    exact foldl_scanTask_lookup_ne bs _ fun y hy heq => hbs (List.mem_map.mpr ⟨y, hy, heq⟩)
  rw [List.foldl_append, List.foldl_cons]
  obtain ⟨e, he, hp⟩ := hmid (pre.foldl (scanProc cfg) acc)
    ((foldl_scanProc_tasks_lookup_ne pre acc hpre).trans hnone)
  exact ⟨e, (foldl_scanProc_tasks_lookup_ne post _ hpost).trans he, hp⟩

/-- The threads a scan binds belong to processes that it maps. -/
theorem scanTask_owner {pid : Tid} {pkg : Str} {htr : Bool} (acc : ProcCache × AppliedMap) (x : TidReading)
    (h : ∀ u q, acc.1.BoundTo u q → q ∈ acc.1.pkgs ∨ q = pid) :
    ∀ u q, (scanTask cfg pid pkg htr acc x).1.BoundTo u q →
      q ∈ (scanTask cfg pid pkg htr acc x).1.pkgs ∨ q = pid := by
  have hc := taskApply_case x.env.createDir acc.1 x.tid pid pkg (scanName htr x.comm) htr cfg true
    (eventAffinityApply x.env cfg.topo) acc.2
  rintro u q ⟨e, he, hq⟩
  rw [scanTask_pkgs]
  rcases eq_or_ne u x.tid with rfl | hu
  · unfold scanTask at he
    generalize acc.1.taskApply x.env.createDir x.tid pid pkg (scanName htr x.comm) htr cfg true
      (eventAffinityApply x.env cfg.topo) acc.2 = out at hc he
    cases hc with
    | unruled => exact h _ _ ⟨e, he, hq⟩
    | kept => exact h _ _ ⟨e, he, hq⟩
    | gone =>
        rw [KeyMap.lookup_erase, if_pos rfl] at he
        cases he
    | bound =>
        rw [KeyMap.lookup_insert, if_pos rfl] at he
        obtain rfl := Option.some.inj he
        exact Or.inr hq.symm
  · exact h u q ⟨e, (taskApply_lookup_ne hc hu).symm.trans he, hq⟩

theorem foldl_scanProc_owner : ∀ (ts : List ScanTarget) (acc : ProcCache × AppliedMap),
    (∀ u q, acc.1.BoundTo u q → q ∈ acc.1.pkgs) →
      ∀ u q, (ts.foldl (scanProc cfg) acc).1.BoundTo u q → q ∈ (ts.foldl (scanProc cfg) acc).1.pkgs
  | [], _, h => h
  | t :: ts, acc, h => by
      rw [List.foldl_cons]
      refine foldl_scanProc_owner ts _ ?_
      have hloop : ∀ (tids : List TidReading) (acc : ProcCache × AppliedMap),
          (∀ u q, acc.1.BoundTo u q → q ∈ acc.1.pkgs ∨ q = t.pid) →
          ∀ u q, (tids.foldl (scanTask cfg t.pid t.pkg t.htr) acc).1.BoundTo u q →
            q ∈ (tids.foldl (scanTask cfg t.pid t.pkg t.htr) acc).1.pkgs ∨ q = t.pid := by
        intro tids
        induction tids with
        | nil => exact fun acc h => h
        | cons x tids ih => exact fun acc h => ih _ (scanTask_owner acc x h)
      unfold scanProc
      cases t.tids with
      | none => exact h
      | some tids =>
          intro u q hb
          rcases hloop tids acc (fun u q hb => Or.inl (h u q hb)) u q hb with hq | rfl
          · exact KeyMap.mem_insert.mpr (Or.inr hq)
          · exact KeyMap.mem_insert.mpr (Or.inl rfl)

/-- The processes a scan maps are those whose threads it can list. -/
theorem mem_foldl_scanProc_pkgs {q : Tid} : ∀ (ts : List ScanTarget) (acc : ProcCache × AppliedMap),
    q ∈ (ts.foldl (scanProc cfg) acc).1.pkgs ↔
      (∃ t ∈ ts, t.pid = q ∧ t.tids.isSome = true) ∨ q ∈ acc.1.pkgs
  | [], acc => by simp
  | t :: ts, acc => by
      rw [List.foldl_cons, mem_foldl_scanProc_pkgs ts, KeyMap.mem_iff_lookup, scanProc_lookup,
        List.exists_mem_cons_iff]
      split_ifs with ht
      · simp [ht.1, ht.2]
      · rw [← KeyMap.mem_iff_lookup]
        have hne : ¬ (t.pid = q ∧ t.tids.isSome = true) := fun h => ht ⟨h.1.symm, h.2⟩
        rw [or_iff_right hne]

/-- A scan that binds a thread of every process it maps leaves the maps in agreement. -/
theorem fullScan_agree {dir : Option (List ProcReading)} (h : ScanKeeps cfg dir) (pc : ProcCache)
    (applied : AppliedMap) : (fullScan cfg dir pc applied).1.Agree := by
  have hfold : (fullScan cfg dir pc applied).1 = (((dir.getD []).filterMap (scanTarget cfg)).foldl (scanProc cfg)
      (pc.clear, appliedClear applied)).1 := by
    unfold fullScan
    cases dir <;> rfl
  rw [hfold]
  have hempty : ∀ u q, ¬ pc.clear.BoundTo u q := by
    rintro u q ⟨e, he, -⟩
    cases he
  intro q
  constructor
  · intro hq
    rcases (mem_foldl_scanProc_pkgs _ _).mp hq with ⟨t, ht, rfl, hs⟩ | hq
    · obtain ⟨tids, htids⟩ := Option.isSome_iff_exists.mp hs
      obtain ⟨x, hx, hb, honce⟩ := h t ht tids htids
      exact ⟨x.tid, foldl_scanProc_boundTo ht htids hx hb honce _ rfl⟩
    · exact absurd hq (AList.notMem_empty q)
  · rintro ⟨u, hu⟩
    exact foldl_scanProc_owner _ _ (fun u q hb => absurd hb (hempty u q)) u q hu

end

/-! ### Runs -/

/-- The daemon's maps with the configuration in force. -/
structure CacheState where
  cfg : AppConfig
  cache : ProcCache
  applied : AppliedMap

/-- The operations of the main loop in eBPF mode. -/
inductive CacheStep where
  | scan (cfg : AppConfig) (dir : Option (List ProcReading))
  | event (env : Env) (ev : ProcEvent)
  | sync (env : Tid → Env)

def cacheStep (s : CacheState) : CacheStep → Option CacheState
  | .scan cfg dir =>
      let out := fullScan cfg dir s.cache s.applied
      some ⟨cfg, out.1, out.2⟩
  | .event env ev =>
      let out := eventDispatch env ev s.cfg s.cache s.applied
      some ⟨s.cfg, out.1, out.2⟩
  | .sync env =>
      let out := correctAffinity env s.cfg s.cache s.applied
      some ⟨s.cfg, out.1, out.2⟩

/-- The steps that keep the agreement. -/
def KeepsAgreement (s : CacheState) : CacheStep → Prop
  | .scan cfg dir => ScanKeeps cfg dir
  | .event env ev => EventKeeps env ev s.cfg s.cache
  | .sync _ => True

theorem cacheStep_agree {s s' : CacheState} {a : CacheStep} (h : s.cache.Agree) (hk : KeepsAgreement s a)
    (hs : cacheStep s a = some s') : s'.cache.Agree := by
  cases a with
  | scan cfg dir =>
      obtain rfl := Option.some.inj hs
      exact fullScan_agree hk _ _
  | event env ev =>
      obtain rfl := Option.some.inj hs
      exact (eventDispatch_agree_iff h ev).mpr hk
  | sync env =>
      obtain rfl := Option.some.inj hs
      exact h.affinitySync env s.cfg.topo

/-- **Along runs whose steps keep the agreement, the maps agree in every state.** -/
theorem agree_along_runs (s : CacheState)
    (h : Runs.Reachable cacheStep KeepsAgreement (fun s => s.cache = ProcCache.new) s) : s.cache.Agree := by
  refine h.invariant (fun s₀ h₀ => ?_) (fun s a s' hI hk hs => cacheStep_agree hI hk hs)
  rw [h₀]
  exact agree_new

/-- Thread 100 of process 100 takes the name `com.a`. -/
def renamed100 : ProcEvent := ⟨100, 100, Comm.ofText "com.a".toList, eventRename⟩

/-- A thread that exits before its event is handled leaves its process mapped without threads. -/
theorem gone_thread_leaves_package :
    ∃ s, Runs.run cacheStep ⟨oneRule, ProcCache.new, ∅⟩ [.event allGone renamed100] = some s ∧ ¬ s.cache.Agree := by
  refine ⟨_, rfl, fun h => ?_⟩
  have hm := (h 100).mp (by decide)
  revert hm
  decide

theorem agree_along_runs_alive :
    ∃ s, Runs.run cacheStep ⟨oneRule, ProcCache.new, ∅⟩ [.event allAlive renamed100] = some s ∧ s.cache.Agree := by
  refine ⟨_, rfl, agree_along_runs _ ⟨_, rfl, Runs.Steps.single (a := .event allAlive renamed100) ?_ rfl⟩⟩
  show ApplyKeeps allAlive ProcCache.new oneRule 100 100 "com.a".toList []
  refine ⟨fun q hq => ?_, fun hd => ?_⟩
  · exact absurd hq.mem (AList.notMem_empty _)
  · rw [affinitySet_eq] at hd
    cases hd

end AetherOptExt
