import AetherOptExt.Discovery
import AetherOptExt.CacheAgreement
import AetherOptExt.ProcMode
import AetherOptExt.Lib.Sweep

/-! # What a full scan leaves

`full_scan` clears both maps and then binds the threads of all selected processes one after
the other, each by `task_apply`, whose result depends on an entry that the thread may have
already.  On a snapshot in which every thread belongs to one process the result does not
depend on anything but the snapshot: the entry of a thread is the one its reading asks for
(`readingEntry`), and `APPLIED_MAP` has the bound threads. -/

namespace AetherOptExt

open ProcCache

/-- A listing of `/proc` at one moment: it has each process once, each thread in one process, and
each thread of a process once. -/
structure Snapshot (entries : List ProcReading) : Prop where
  pids : DistinctPids entries
  owned : ThreadsOwned entries
  once : ∀ r ∈ entries, ∀ tids, r.tids = some tids → ∀ x ∈ tids, ∀ y ∈ tids, x.tid = y.tid → x = y

/-- A process of the listing that the scan selects, with its name and its threads. -/
def Interested (cfg : AppConfig) (entries : List ProcReading) (pid : Tid) (name : Str) (tids : List TidReading) : Prop :=
  ∃ r ∈ entries, r.pid = some pid ∧ (readCmdline r.cmdline).or (tidComm r.comm) = some name ∧
    interested cfg name = true ∧ r.tids = some tids

/-- The entry that a reading of a thread asks for. -/
def readingEntry (cfg : AppConfig) (t : ScanTarget) (x : TidReading) : Option TaskEntry :=
  (threadAffinity x.env.createDir t.pkg (t.threadName x) cfg cfg.topo).bind (fun r =>
    if affinitySet x.env x.tid r.cpus r.cpusetDir cfg.topo then none else some (entryOf t.pid r))

/-- What the maps hold about a thread. -/
def heldAt (u : Tid) (acc : ProcCache × AppliedMap) : Option TaskEntry × Bool :=
  (acc.1.tasks.lookup u, decide (u ∈ acc.2))

/-- What the maps hold about a thread with the entry `o`, or without one. -/
def heldAs (o : Option TaskEntry) : Option TaskEntry × Bool := (o, o.isSome)

/-! ### One thread -/

section

variable {cfg : AppConfig} {t : ScanTarget} {x : TidReading} {u : Tid}

theorem heldAt_scanTask_ne (hu : x.tid ≠ u) (acc : ProcCache × AppliedMap) :
    heldAt u (scanTask cfg t.pid t.pkg t.htr acc x) = heldAt u acc := by
  have hc := taskApply_case x.env.createDir acc.1 x.tid t.pid t.pkg (scanName t.htr x.comm) t.htr cfg true
    (eventAffinityApply x.env cfg.topo) acc.2
  unfold heldAt scanTask
  rw [taskApply_lookup_ne hc hu.symm]
  congr 1
  rw [decide_eq_decide]
  generalize acc.1.taskApply x.env.createDir x.tid t.pid t.pkg (scanName t.htr x.comm) t.htr cfg true
    (eventAffinityApply x.env cfg.topo) acc.2 = out at hc ⊢
  cases hc with
  | unruled => rfl
  | kept => rfl
  | gone _ _ hd => rw [eventAffinityApply_of_dead hd]
  | bound _ _ hd =>
      rw [eventAffinityApply_of_alive hd, mem_appliedSet]
      exact or_iff_right hu.symm

/-- A thread without an entry, or with the one its reading asks for, has that one afterwards. -/
theorem heldAt_scanTask_self {acc : ProcCache × AppliedMap}
    (h : heldAt x.tid acc = heldAs none ∨ heldAt x.tid acc = heldAs (readingEntry cfg t x)) :
    heldAt x.tid (scanTask cfg t.pid t.pkg t.htr acc x) = heldAs (readingEntry cfg t x) := by
  have hc := taskApply_case x.env.createDir acc.1 x.tid t.pid t.pkg (scanName t.htr x.comm) t.htr cfg true
    (eventAffinityApply x.env cfg.topo) acc.2
  unfold scanTask
  generalize acc.1.taskApply x.env.createDir x.tid t.pid t.pkg (scanName t.htr x.comm) t.htr cfg true
    (eventAffinityApply x.env cfg.topo) acc.2 = out at hc ⊢
  cases hc with
  | unruled hr =>
      have he : readingEntry cfg t x = none := by
        unfold readingEntry ScanTarget.threadName
        rw [hr]
        rfl
      rw [he, or_self] at h
      rw [he]
      exact h
  | @kept r hr hk =>
      -- the entry that stays is a thread rule's, and the reading asks for another
      obtain ⟨e, he, hold, hnew⟩ := keeps_mem hk
      exfalso
      rcases h with h | h
      · have hnone : acc.1.tasks.lookup x.tid = none := congrArg Prod.fst h
        rw [he] at hnone
        cases hnone
      · have hentry : acc.1.tasks.lookup x.tid = readingEntry cfg t x := congrArg Prod.fst h
        unfold readingEntry ScanTarget.threadName at hentry
        rw [he, hr, Option.bind_some] at hentry
        split_ifs at hentry
        obtain rfl := Option.some.inj hentry
        exact absurd hold (by rw [show (entryOf t.pid r).isThreadRule = r.isThreadRule from rfl, hnew]; decide)
  | @gone r hr hk hd =>
      have he : readingEntry cfg t x = none := by
        unfold readingEntry ScanTarget.threadName
        rw [eventAffinityApply_fst] at hd
        rw [hr, Option.bind_some, if_pos hd]
      rw [he, or_self] at h
      have hfree : decide (x.tid ∈ acc.2) = false := congrArg Prod.snd h
      rw [he, eventAffinityApply_of_dead hd]
      exact Prod.ext (AList.lookup_erase _ _) hfree
  | @bound r hr hk hd =>
      have he : readingEntry cfg t x = some (entryOf t.pid r) := by
        unfold readingEntry ScanTarget.threadName
        have hd' := hd
        rw [eventAffinityApply_fst] at hd'
        rw [hr, Option.bind_some, if_neg (by rw [hd']; decide)]
      rw [he, eventAffinityApply_of_alive hd]
      exact Prod.ext (AList.lookup_insert _) (decide_eq_true (mem_appliedSet.mpr (Or.inl rfl)))

/-! ### All threads of all processes -/

/-- A target reads the thread. -/
def ScanTarget.Reads (u : Tid) (t : ScanTarget) : Prop := ∃ tids, t.tids = some tids ∧ ∃ x ∈ tids, x.tid = u

theorem heldAt_scanProc_ne (h : ¬ t.Reads u) (acc : ProcCache × AppliedMap) :
    heldAt u (scanProc cfg acc t) = heldAt u acc := by
  unfold scanProc
  cases htids : t.tids with
  | none => rfl
  | some tids =>
      exact Sweep.foldl_frame (heldAt u) tids acc fun x hx acc =>
        heldAt_scanTask_ne (fun he => h ⟨tids, htids, x, hx, he⟩) acc

/-- A process that reads a thread gives it the entry that all its readings of it ask for. -/
theorem heldAt_scanProc {o : Option TaskEntry} (h : t.Reads u)
    (hval : ∀ tids, t.tids = some tids → ∀ x ∈ tids, x.tid = u → readingEntry cfg t x = o)
    (acc : ProcCache × AppliedMap) (hacc : heldAt u acc = heldAs none ∨ heldAt u acc = heldAs o) :
    heldAt u (scanProc cfg acc t) = heldAs o := by
  obtain ⟨tids, htids, hread⟩ := h
  unfold scanProc
  rw [htids]
  refine Sweep.foldl_write (heldAt u) (fun x : TidReading => x.tid = u) tids acc
    (fun x _ hx acc => heldAt_scanTask_ne hx acc) (fun x hx hxu acc hacc => ?_) hacc (Or.inr hread)
  subst hxu
  have hv := hval tids htids x hx rfl
  rw [← hv] at hacc ⊢
  exact heldAt_scanTask_self hacc

end

/-! ### The scan -/

section

variable {cfg : AppConfig} {entries : List ProcReading}

theorem mem_scanTargets {t : ScanTarget} {tids : List TidReading} (ht : t.tids = some tids) :
    t ∈ entries.filterMap (scanTarget cfg) ↔
      Interested cfg entries t.pid t.pkg tids ∧ t.htr = cfg.pkgHasThreadRules t.pkg := by
  rw [List.mem_filterMap]
  constructor
  · rintro ⟨r, hr, h⟩
    obtain ⟨pid, pkg, hpid, hpkg, hi, rfl⟩ := scanTarget_eq_some.mp h
    exact ⟨⟨r, hr, hpid, hpkg, hi, ht⟩, rfl⟩
  · rintro ⟨⟨r, hr, hpid, hpkg, hi, htids⟩, hhtr⟩
    refine ⟨r, hr, scanTarget_eq_some.mpr ⟨t.pid, t.pkg, hpid, hpkg, hi, ?_⟩⟩
    rw [← hhtr, htids, ← ht]

/-- In a snapshot a thread is read once, as a thread of one process. -/
theorem Snapshot.reading_unique (h : Snapshot entries) {t t' : ScanTarget}
    (ht : t ∈ entries.filterMap (scanTarget cfg)) (ht' : t' ∈ entries.filterMap (scanTarget cfg))
    {tids tids' : List TidReading} (htids : t.tids = some tids) (htids' : t'.tids = some tids')
    {x x' : TidReading} (hx : x ∈ tids) (hx' : x' ∈ tids') (hu : x.tid = x'.tid) : t = t' ∧ x = x' := by
  obtain ⟨⟨r, hr, hpid, hpkg, -, hl⟩, hhtr⟩ := (mem_scanTargets htids).mp ht
  obtain ⟨⟨r', hr', hpid', hpkg', -, hl'⟩, hhtr'⟩ := (mem_scanTargets htids').mp ht'
  have hmem : x.tid ∈ r.threads := by
    unfold ProcReading.threads
    rw [hl]
    exact List.mem_map_of_mem hx
  have hmem' : x.tid ∈ r'.threads := by
    unfold ProcReading.threads
    rw [hl', hu]
    exact List.mem_map_of_mem hx'
  have hp : t.pid = t'.pid := h.owned r hr r' hr' _ _ _ hpid hpid' hmem hmem'
  obtain rfl : r = r' := DistinctPids.eq hpid (hp ▸ hpid') h.pids hr hr'
  obtain rfl := Option.some.inj (hl.symm.trans hl')
  obtain rfl := h.once r hr tids hl x hx x' hx' hu
  obtain ⟨pid, pkg, htr, _⟩ := t
  obtain ⟨pid', pkg', htr', _⟩ := t'
  obtain rfl : pid = pid' := hp
  obtain rfl : pkg = pkg' := Option.some.inj (hpkg.symm.trans hpkg')
  obtain rfl : htr = htr' := hhtr.trans hhtr'.symm
  exact ⟨congrArg _ (htids.trans htids'.symm), rfl⟩

/-- Two readings of a thread in a snapshot ask for the same entry. -/
theorem Snapshot.readingEntry_eq (h : Snapshot entries) {t t' : ScanTarget}
    (ht : t ∈ entries.filterMap (scanTarget cfg)) (ht' : t' ∈ entries.filterMap (scanTarget cfg))
    {tids tids' : List TidReading} (htids : t.tids = some tids) (htids' : t'.tids = some tids')
    {x x' : TidReading} (hx : x ∈ tids) (hx' : x' ∈ tids') (hu : x.tid = x'.tid) :
    readingEntry cfg t x = readingEntry cfg t' x' := by
  obtain ⟨rfl, rfl⟩ := h.reading_unique ht ht' htids htids' hx hx' hu
  rfl

/-- The scan clears the maps first. -/
theorem fullScan_eq (cfg : AppConfig) (dir : Option (List ProcReading)) (pc : ProcCache) (applied : AppliedMap) :
    fullScan cfg dir pc applied = ((dir.getD []).filterMap (scanTarget cfg)).foldl (scanProc cfg) (new, ∅) := by
  unfold fullScan appliedClear
  rw [KeyMap.eraseAll_keys]
  cases dir <;> rfl

/-- A thread that the scan reads has the entry its reading asks for. -/
theorem heldAt_scan (h : Snapshot entries) {t : ScanTarget} (ht : t ∈ entries.filterMap (scanTarget cfg))
    {tids : List TidReading} (htids : t.tids = some tids) {x : TidReading} (hx : x ∈ tids) :
    heldAt x.tid ((entries.filterMap (scanTarget cfg)).foldl (scanProc cfg) (new, ∅)) =
      heldAs (readingEntry cfg t x) := by
  refine Sweep.foldl_write (heldAt x.tid) (ScanTarget.Reads x.tid) _ _
    (fun t' _ hn acc => heldAt_scanProc_ne hn acc) (fun t' ht' hread acc hacc => ?_) (Or.inl rfl)
    (Or.inr ⟨t, ht, tids, htids, x, hx, rfl⟩)
  exact heldAt_scanProc hread (fun tids' htids' x' hx' hu =>
    h.readingEntry_eq ht' ht htids' htids hx' hx hu) acc hacc

/-- A thread has an entry after the scan exactly when a reading of it asks for it. -/
theorem scan_lookup_iff (h : Snapshot entries) {u : Tid} {e : TaskEntry} :
    ((entries.filterMap (scanTarget cfg)).foldl (scanProc cfg) (new, ∅)).1.tasks.lookup u = some e ↔
      ∃ t ∈ entries.filterMap (scanTarget cfg), ∃ tids, t.tids = some tids ∧
        ∃ x ∈ tids, x.tid = u ∧ readingEntry cfg t x = some e := by
  constructor
  · intro hl
    by_cases hread : ∃ t ∈ entries.filterMap (scanTarget cfg), t.Reads u
    · obtain ⟨t, ht, tids, htids, x, hx, rfl⟩ := hread
      refine ⟨t, ht, tids, htids, x, hx, rfl, ?_⟩
      exact (congrArg Prod.fst (heldAt_scan h ht htids hx)).symm.trans hl
    · have hframe : heldAt u ((entries.filterMap (scanTarget cfg)).foldl (scanProc cfg) (new, ∅)) = heldAs none :=
        Sweep.foldl_frame (heldAt u) _ _ fun t ht acc => heldAt_scanProc_ne (fun hr => hread ⟨t, ht, hr⟩) acc
      have hnone := (congrArg Prod.fst hframe).symm.trans hl
      cases hnone
  · rintro ⟨t, ht, tids, htids, x, hx, rfl, he⟩
    exact (congrArg Prod.fst (heldAt_scan h ht htids hx)).trans he

/-- After the scan `APPLIED_MAP` has exactly the bound threads. -/
theorem scan_applied_iff (h : Snapshot entries) {u : Tid} :
    u ∈ ((entries.filterMap (scanTarget cfg)).foldl (scanProc cfg) (new, ∅)).2 ↔
      u ∈ ((entries.filterMap (scanTarget cfg)).foldl (scanProc cfg) (new, ∅)).1.tasks := by
  have hheld : ∃ o, heldAt u ((entries.filterMap (scanTarget cfg)).foldl (scanProc cfg) (new, ∅)) = heldAs o := by
    by_cases hread : ∃ t ∈ entries.filterMap (scanTarget cfg), t.Reads u
    · obtain ⟨t, ht, tids, htids, x, hx, rfl⟩ := hread
      exact ⟨_, heldAt_scan h ht htids hx⟩
    · exact ⟨none, Sweep.foldl_frame (heldAt u) _ _ fun t ht acc =>
        heldAt_scanProc_ne (fun hr => hread ⟨t, ht, hr⟩) acc⟩
  obtain ⟨o, ho⟩ := hheld
  generalize (entries.filterMap (scanTarget cfg)).foldl (scanProc cfg) (new, ∅) = out at ho ⊢
  obtain ⟨hfst, hsnd⟩ := Prod.mk.inj ho
  have htask : u ∈ out.1.tasks ↔ o.isSome = true := by rw [← AList.lookup_isSome, hfst]
  rw [htask, ← hsnd, decide_eq_true_eq]

theorem threadName_scanName (htr : Bool) (comm : Option Str) :
    threadName htr true (scanName htr comm) = if htr then (tidComm comm).getD [] else [] := by
  cases htr <;> rfl

end

/-- **A full scan is a rebuild from the snapshot alone.** -/
theorem fullScan_rebuild (cfg : AppConfig) (dir : Option (List ProcReading)) (h : Snapshot (dir.getD []))
    (pc : ProcCache) (applied : AppliedMap) :
    (∀ u e, (fullScan cfg dir pc applied).1.tasks.lookup u = some e ↔
      ∃ pid name tids x r, Interested cfg (dir.getD []) pid name tids ∧ x ∈ tids ∧ x.tid = u ∧
        threadAffinity x.env.createDir name (if cfg.pkgHasThreadRules name then (tidComm x.comm).getD [] else []) cfg
          cfg.topo = some r ∧
        affinitySet x.env u r.cpus r.cpusetDir cfg.topo = false ∧ e = ⟨pid, r.cpus, r.cpusetDir, r.isThreadRule⟩) ∧
    (∀ u, u ∈ (fullScan cfg dir pc applied).2 ↔ u ∈ (fullScan cfg dir pc applied).1.tasks) ∧
    (∀ q p, (fullScan cfg dir pc applied).1.pkgs.lookup q = some p ↔
      ∃ tids, Interested cfg (dir.getD []) q p.1 tids ∧ p.2 = cfg.pkgHasThreadRules p.1) ∧
    (∀ pc' applied', fullScan cfg dir pc' applied' = fullScan cfg dir pc applied) ∧
    fullScan cfg dir (fullScan cfg dir pc applied).1 (fullScan cfg dir pc applied).2 = fullScan cfg dir pc applied := by
  have hstate : ∀ pc' applied', fullScan cfg dir pc' applied' = fullScan cfg dir pc applied := fun _ _ => by
    rw [fullScan_eq, fullScan_eq]
  refine ⟨fun u e => ?_, fun u => ?_, fun q p => ?_, hstate, hstate _ _⟩
  · rw [fullScan_eq, scan_lookup_iff h]
    constructor
    · rintro ⟨t, ht, tids, htids, x, hx, rfl, he⟩
      obtain ⟨hi, hhtr⟩ := (mem_scanTargets htids).mp ht
      obtain ⟨r, hr, he⟩ := Option.bind_eq_some_iff.mp he
      rw [ScanTarget.threadName, threadName_scanName, hhtr] at hr
      split_ifs at he with hd
      exact ⟨t.pid, t.pkg, tids, x, r, hi, hx, rfl, hr, Bool.eq_false_iff.mpr hd, (Option.some.inj he).symm⟩
    · rintro ⟨pid, name, tids, x, r, hi, hx, rfl, hr, hd, rfl⟩
      refine ⟨⟨pid, name, cfg.pkgHasThreadRules name, some tids⟩, (mem_scanTargets rfl).mpr ⟨hi, rfl⟩, tids, rfl, x,
        hx, rfl, ?_⟩
      refine Option.bind_eq_some_iff.mpr ⟨r, ?_, if_neg (by rw [hd]; decide)⟩
      rw [ScanTarget.threadName, threadName_scanName]
      exact hr
  · rw [fullScan_eq]
    exact scan_applied_iff h
  · rw [fullScan_eq]
    have hnodup : (((dir.getD []).filterMap (scanTarget cfg)).map ScanTarget.pid).Nodup :=
      h.pids.sublist (scanTargets_pids cfg _)
    constructor
    · intro hl
      have hq : q ∈ (((dir.getD []).filterMap (scanTarget cfg)).foldl (scanProc cfg) (new, ∅)).1.pkgs :=
        KeyMap.mem_of_lookup hl
      rcases (mem_foldl_scanProc_pkgs _ _).mp hq with ⟨t, ht, rfl, hs⟩ | hq
      · obtain ⟨tids, htids⟩ := Option.isSome_iff_exists.mp hs
        rw [foldl_scanProc_lookup cfg hs _ _ hnodup ht] at hl
        obtain rfl := Option.some.inj hl
        exact ⟨tids, (mem_scanTargets htids).mp ht⟩
      · exact absurd hq (AList.notMem_empty q)
    · rintro ⟨tids, hi, hhtr⟩
      have ht : (⟨q, p.1, p.2, some tids⟩ : ScanTarget) ∈ (dir.getD []).filterMap (scanTarget cfg) :=
        (mem_scanTargets rfl).mpr ⟨hi, hhtr⟩
      exact foldl_scanProc_lookup cfg rfl _ _ hnodup ht

theorem singleThread_snapshot {pids : List Tid} (h : pids.Nodup) : Snapshot (pids.map ProcState.singleThread) where
  pids := by
    unfold DistinctPids
    rw [List.filterMap_map]
    exact (List.filterMap_some (l := pids)).symm ▸ h
  owned := ProcState.singleThread_owned pids
  once r hr tids ht x hx y hy _ := by
    obtain ⟨q, -, rfl⟩ := List.mem_map.mp hr
    obtain rfl := Option.some.inj ht
    rw [List.mem_singleton.mp hx, List.mem_singleton.mp hy]

theorem oneProcess_snapshot : Snapshot (ProcState.oneProcess.dir.getD []) :=
  singleThread_snapshot (List.nodup_singleton 10)

/-- The process 30 has exited since, and a thread rule that is no longer in the file has bound 10. -/
def staleCache : ProcCache where
  pkgs := (∅ : KeyMap Tid (Str × Bool)).insert 30 ("com.b".toList, false)
  tasks := ((∅ : KeyMap Tid TaskEntry).insert 30 ⟨30, fromRange "7".toList, [], false⟩).insert 10
    ⟨10, fromRange "6".toList, [], true⟩

/-- The threads of both processes are bound by the package-level rule, and nothing old is left. -/
theorem fullScan_rebuild_stale :
    (∀ pid, pid = 10 ∨ pid = 20 →
      (fullScan oneRule ProcState.twoProcesses.dir staleCache ((∅ : AppliedMap).insert 30 0)).1.tasks.lookup pid =
          some ⟨pid, fromRange "0-3".toList, [], false⟩ ∧
        pid ∈ (fullScan oneRule ProcState.twoProcesses.dir staleCache ((∅ : AppliedMap).insert 30 0)).2 ∧
        (fullScan oneRule ProcState.twoProcesses.dir staleCache ((∅ : AppliedMap).insert 30 0)).1.pkgs.lookup pid =
          some ("com.a".toList, false)) ∧
      30 ∉ (fullScan oneRule ProcState.twoProcesses.dir staleCache ((∅ : AppliedMap).insert 30 0)).2 := by
  obtain ⟨htasks, happlied, hpkgs, -⟩ := fullScan_rebuild oneRule ProcState.twoProcesses.dir
    (singleThread_snapshot (by decide : ([10, 20] : List Tid).Nodup)) staleCache ((∅ : AppliedMap).insert 30 0)
  have hname : (readCmdline (some "com.a".toList)).or (tidComm none) = some "com.a".toList := by decide
  have hanswer : threadAffinity allAlive.createDir "com.a".toList
      (if oneRule.pkgHasThreadRules "com.a".toList then (tidComm none).getD [] else []) oneRule oneRule.topo =
        some ⟨fromRange "0-3".toList, [], false⟩ := by
    decide +kernel
  refine ⟨fun pid hpid => ?_, fun h => ?_⟩
  · have hi : Interested oneRule (ProcState.twoProcesses.dir.getD []) pid "com.a".toList [⟨pid, none, allAlive⟩] := by
      refine ⟨ProcState.singleThread pid, ?_, rfl, hname, by decide, rfl⟩
      rcases hpid with rfl | rfl
      · exact List.mem_cons_self
      · exact List.mem_cons_of_mem _ List.mem_cons_self
    have hbound := (htasks pid ⟨pid, fromRange "0-3".toList, [], false⟩).mpr
      ⟨pid, _, _, _, _, hi, List.mem_cons_self, rfl, hanswer, by rcases hpid with rfl | rfl <;> decide +kernel, rfl⟩
    exact ⟨hbound, (happlied pid).mpr (KeyMap.mem_of_lookup hbound), (hpkgs pid _).mpr ⟨_, hi, by decide⟩⟩
  · -- no process of the listing has the thread
    obtain ⟨e, he⟩ := KeyMap.mem_iff_lookup.mp ((happlied 30).mp h)
    obtain ⟨pid, name, tids, x, r, ⟨reading, hmem, -, -, -, htids⟩, hx, hu, -⟩ := (htasks 30 e).mp he
    obtain ⟨q, hq, rfl⟩ := List.mem_map.mp (show reading ∈ [10, 20].map ProcState.singleThread from hmem)
    obtain rfl := Option.some.inj htids
    rw [List.mem_singleton.mp hx] at hu
    obtain rfl : q = 30 := hu
    exact absurd hq (by decide)

end AetherOptExt
